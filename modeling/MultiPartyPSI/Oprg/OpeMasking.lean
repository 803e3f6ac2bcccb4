import MultiPartyPSI.Oprg.OtExtension
import MultiPartyPSI.Oprg.Positions

/-!
# From OTs to masks

`OPEMasking`, where `AES256_HASH` is not defined. Each byte of an item is the choice of one
OT, and the mask of the item is the sum of a hash for each of its OTs. The client hashes the
row of its matrix; the server, for each of its items in the bin, the row with the item's code
word added, which it computes on the fly in a small bin and in advance for all 256 bytes in a
full one.

The two `expand` routines give the `XORBits` calls they make, in order. `masked_serverMaskOt` says
what the server's calls for one OT add, in either branch; `maskSum_clientMaskOt` and
`maskSum_serverMaskOt` are what one OT adds to one mask.
-/

namespace MultiPartyPSI

open Lib Buf

variable {Key : Type*} (P : OtCrypto Key)

section Model

/-- The members the client's constructor sets. -/
structure ClientMasking where
  otsPerElement : Nat
  numEleInBin : Buf Nat
  binToResult : Buf Nat

/-- The constructor called by the client. -/
def clientMasking (itembitlen nbins : Nat) (nelements : Buf Nat) : ClientMasking :=
  ⟨ceilDivide itembitlen 8, nelements, binToResult nbins nelements⟩

/-- The members the server's constructor sets. `maskbytelen` is `m_nMaskBitLen` in bytes. -/
structure ServerMasking where
  otsPerElement : Nat
  maskbytelen : Nat
  numEleInBin : Buf Nat
  startingPosForBin : Buf Nat
  serverChoices : CBitVector

/-- The constructor called by the server. -/
def serverMasking (itembitlen maskbytelen nbins : Nat) (nelements : Buf Nat)
    (serverChoices : CBitVector) : ServerMasking :=
  ⟨ceilDivide itembitlen 8, maskbytelen, nelements, startingPosForBin nbins nelements,
    serverChoices⟩

/-- `tmpbuf`: the number of the OT and a mask. -/
def tmpbuf (otId : Nat) (mask : Fin codeWordBytes → Byte) : Fin (8 + codeWordBytes) → Byte :=
  fun i => if i.val < 8 then ofNatLE otId i else ofRow mask (i - 8)

/-- One round of `ClientExpand`, `Mptr` being the row it points to. -/
def clientMaskOt (M : ClientMasking) (otId : Nat) (Mptr : Fin codeWordBytes → Byte) :
    List MaskCall :=
  let binId := otId / M.otsPerElement
  if M.numEleInBin binId > 0 then [⟨M.binToResult binId, P.hash (tmpbuf otId Mptr)⟩] else []

/-- `ClientExpand`. -/
def clientExpand (M : ClientMasking) (matrix : Buf Byte) (otBeginId processedOTs : Nat) :
    List MaskCall :=
  (List.range processedOTs).flatMap fun j =>
    clientMaskOt P M (otBeginId + j) (row codeWordBytes matrix j)

/-- `ANDBytes`. -/
def andInto (dst : Buf Byte) (p : Nat) (src : Buf Byte) (q n : Nat) : Buf Byte :=
  zipInto (fun a b => a &&& b) dst p src q n

/-- Mask `u` of `mask`: `Copy`, `ANDBytes` and `XORBytes`. -/
def setMask (mask : Buf Byte) (u : Nat) (uptr code : Buf Byte) (Mptr : Fin codeWordBytes → Byte) :
    Buf Byte :=
  xorInto (andInto (copy mask (u * codeWordBytes) uptr (0 * codeWordBytes) codeWordBytes)
    (u * codeWordBytes) code (0 * codeWordBytes) codeWordBytes)
    (u * codeWordBytes) (ofRow Mptr) (0 * codeWordBytes) codeWordBytes

/-- The byte of item `u` in the OT's bin that belongs to the OT. -/
def serverChoice (M : ServerMasking) (otId u : Nat) : Nat :=
  let binoffset := M.startingPosForBin (otId / M.otsPerElement) * M.otsPerElement
  M.serverChoices.get8 (binoffset + otId % M.otsPerElement + u * M.otsPerElement)

/-- One round of `ServerExpand`. `mask` and `hash_buf` are overwritten before they are read. -/
def serverMaskOt (M : ServerMasking) (uptr : Buf Byte) (otId : Nat)
    (Mptr : Fin codeWordBytes → Byte) : List MaskCall :=
  let binId := otId / M.otsPerElement
  if M.numEleInBin binId < codeWordBits then
    (List.range (M.numEleInBin binId)).map fun u =>
      let mask := setMask (fun _ => 0) 0 uptr (P.codeWords (serverChoice M otId u)) Mptr
      ⟨M.startingPosForBin binId + u, P.hash (tmpbuf otId (row codeWordBytes mask 0))⟩
  else
    let mask := loop (fun u mask => setMask mask u uptr (P.codeWords u) Mptr) codeWordBits
      (fun _ => 0)
    let hashBuf := loop (fun u hashBuf => copy hashBuf (u * M.maskbytelen)
      (P.hash (tmpbuf otId (row codeWordBytes mask u))) (0 * M.maskbytelen) M.maskbytelen)
      codeWordBits (fun _ => 0)
    (List.range (M.numEleInBin binId)).map fun u =>
      ⟨M.startingPosForBin binId + u, fun i => hashBuf (serverChoice M otId u * M.maskbytelen + i)⟩

/-- `ServerExpand`. -/
def serverExpand (M : ServerMasking) (matrix uptr : Buf Byte) (otBeginId processedOTs : Nat) :
    List MaskCall :=
  (List.range processedOTs).flatMap fun j =>
    serverMaskOt P M uptr (otBeginId + j) (row codeWordBytes matrix j)

end Model

/-! ## What one OT adds -/

section OneOt

variable {P}

/-- The hash of one OT, as much of it as a mask takes. -/
def otMask (P : OtCrypto Key) (maskbytelen otId : Nat) (mask : Fin codeWordBytes → Byte) :
    Fin maskbytelen → Byte := row maskbytelen (P.hash (tmpbuf otId mask)) 0

theorem CBitVector.get8_lt (v : CBitVector) (i : Nat) : v.get8 i < codeWordBits := by
  unfold get8
  split
  · exact Nat.zero_lt_succ _
  · exact (v.bits i).toBits.isLt

/-- A mask is the code word behind the choice bits, and the matrix row. -/
theorem row_setMask_same (mask : Buf Byte) (u : Nat) (uptr code : Buf Byte)
    (Mptr : Fin codeWordBytes → Byte) :
    row codeWordBytes (setMask mask u uptr code Mptr) u
      = Mptr + row codeWordBytes (selectCode uptr code) 0 := by
  rw [setMask, row_xorInto_same, row_ofRow, add_comm]
  congr 1
  rw [andInto, row_zipInto_same, row_copy_same]
  funext j
  simp only [row_apply, selectCode, Nat.zero_mul]

theorem row_setMask_ne (mask : Buf Byte) {u u' : Nat} (uptr code : Buf Byte)
    (Mptr : Fin codeWordBytes → Byte) (h : u' ≠ u) :
    row codeWordBytes (setMask mask u uptr code Mptr) u' = row codeWordBytes mask u' := by
  rw [setMask, row_xorInto_ne _ _ _ _ h, andInto, row_zipInto_ne _ _ _ _ _ h,
    row_copy_ne _ _ _ _ h]

/-- The masks a full bin has in advance. -/
theorem row_loop_setMask (uptr : Buf Byte) (Mptr : Fin codeWordBytes → Byte) {v : Nat}
    (hv : v < codeWordBits) :
    row codeWordBytes (loop (fun u mask => setMask mask u uptr (P.codeWords u) Mptr)
        codeWordBits (fun _ => 0)) v
      = Mptr + row codeWordBytes (selectCode uptr (P.codeWords v)) 0 := by
  refine loop_settles (Q := fun v (m : Buf Byte) => row codeWordBytes m v
    = Mptr + row codeWordBytes (selectCode uptr (P.codeWords v)) 0) codeWordBits
    (fun u m _ => row_setMask_same ..) (fun v u m hlt _ hm => ?_) hv
  rw [row_setMask_ne _ _ _ _ (Nat.ne_of_lt hlt), hm]

/-- The row that a byte selects. -/
def selectedRow (P : OtCrypto Key) (uptr : Buf Byte) (Mptr : Fin codeWordBytes → Byte)
    (choice : Nat) : Fin codeWordBytes → Byte :=
  Mptr + row codeWordBytes (selectCode uptr (P.codeWords choice)) 0

/-- The mask of item `u` in the OT's bin, and what the OT adds to it. -/
def elementMask (P : OtCrypto Key) (M : ServerMasking) (uptr : Buf Byte) (otId : Nat)
    (Mptr : Fin codeWordBytes → Byte) (u : Nat) : Nat × (Fin M.maskbytelen → Byte) :=
  (M.startingPosForBin (otId / M.otsPerElement) + u,
    otMask P M.maskbytelen otId (selectedRow P uptr Mptr (serverChoice M otId u)))

/-- **Both branches of `ServerExpand` make the same calls**: one for each item of the bin,
with the hash of the row the item's byte selects. -/
theorem masked_serverMaskOt (M : ServerMasking) (uptr : Buf Byte) (otId : Nat)
    (Mptr : Fin codeWordBytes → Byte) :
    (serverMaskOt P M uptr otId Mptr).map (MaskCall.masked M.maskbytelen)
      = (List.range (M.numEleInBin (otId / M.otsPerElement))).map
        (elementMask P M uptr otId Mptr) := by
  dsimp only [serverMaskOt]
  split
  · rw [List.map_map]
    refine List.map_congr_left fun u _ => Prod.ext rfl ?_
    rw [Function.comp_apply, MaskCall.masked]
    dsimp only
    rw [row_setMask_same]
    rfl
  · rw [List.map_map]
    refine List.map_congr_left fun u _ => Prod.ext rfl ?_
    have hchoice : serverChoice M otId u < codeWordBits := CBitVector.get8_lt _ _
    have hrow := row_loop_copy M.maskbytelen codeWordBits (fun u => P.hash (tmpbuf otId
      (row codeWordBytes (loop (fun u mask => setMask mask u uptr (P.codeWords u) Mptr)
        codeWordBits (fun _ => 0)) u))) (fun _ => 0) (fun _ => 0) hchoice
    rw [row_loop_setMask uptr Mptr hchoice] at hrow
    rw [elementMask, otMask, selectedRow, ← hrow]
    exact row_offset ..

theorem maskSum_serverMaskOt (M : ServerMasking) (uptr : Buf Byte) (otId : Nat)
    (Mptr : Fin codeWordBytes → Byte) (r : Nat) :
    maskSum M.maskbytelen (serverMaskOt P M uptr otId Mptr) r
      = ∑ u ∈ Finset.range (M.numEleInBin (otId / M.otsPerElement)),
        if M.startingPosForBin (otId / M.otsPerElement) + u = r then
          otMask P M.maskbytelen otId (Mptr
            + row codeWordBytes (selectCode uptr (P.codeWords (serverChoice M otId u))) 0)
        else 0 :=
  maskSum_of_masked (masked_serverMaskOt M uptr otId Mptr) r

theorem maskSum_clientMaskOt (M : ClientMasking) (w otId : Nat) (Mptr : Fin codeWordBytes → Byte)
    (r : Nat) :
    maskSum w (clientMaskOt P M otId Mptr) r
      = if 0 < M.numEleInBin (otId / M.otsPerElement)
            ∧ M.binToResult (otId / M.otsPerElement) = r
        then otMask P w otId Mptr else 0 := by
  dsimp only [clientMaskOt]
  by_cases h : 0 < M.numEleInBin (otId / M.otsPerElement)
  · rw [if_pos h, maskSum, List.map_singleton, List.sum_singleton]
    exact if_congr (by rw [and_iff_right h]) rfl rfl
  · rw [if_neg h, if_neg fun hc => h hc.1]
    rfl

/-- The calls are at the positions of the bin. -/
theorem index_of_mem_clientMaskOt {M : ClientMasking} {otId : Nat}
    {Mptr : Fin codeWordBytes → Byte} {c : MaskCall} (h : c ∈ clientMaskOt P M otId Mptr) :
    0 < M.numEleInBin (otId / M.otsPerElement)
      ∧ c.index = M.binToResult (otId / M.otsPerElement) := by
  dsimp only [clientMaskOt] at h
  split at h
  · next hfull =>
      rw [List.mem_singleton.mp h]
      exact ⟨hfull, rfl⟩
  · exact absurd h List.not_mem_nil

theorem index_of_mem_serverMaskOt {M : ServerMasking} {uptr : Buf Byte} {otId : Nat}
    {Mptr : Fin codeWordBytes → Byte} {c : MaskCall} (h : c ∈ serverMaskOt P M uptr otId Mptr) :
    ∃ u < M.numEleInBin (otId / M.otsPerElement),
      c.index = M.startingPosForBin (otId / M.otsPerElement) + u := by
  dsimp only [serverMaskOt] at h
  split at h <;>
  · obtain ⟨u, hu, rfl⟩ := List.mem_map.mp h
    exact ⟨u, List.mem_range.mp hu, rfl⟩

end OneOt

end MultiPartyPSI
