import MultiPartyPSI.Oprg.Agreement

/-!
# The buffers of `ServerExpand`

The server's constructor decides by one pass over the bins whether `ServerExpand` gets room for
one hash or for 256, and `ServerExpand` decides for each OT which of its branches to take. Here
`ServerExpand` is run with the lengths of its two buffers: an access outside ends the run.

`mask` grows when it is copied into, `hash_buf` does not. `serverMaskOtIn_spec` says that a round
that stays inside makes the calls of `serverMaskOt`, and `precomputing_hasRoom_iff` for which bins
the branch that hashes all code words has its room: the constructor asks for more than 256
elements, the branch is taken from 256 on.
-/

namespace MultiPartyPSI

open Lib Buf

variable {Key : Type*}

section Model

/-- `SHA512_OUT_BYTES`. -/
abbrev sha512OutBytes : Nat := 64

/-- What `crypto::hash` writes when it is asked for `noutbytes`: without a hash of that length,
nothing. -/
def hashedBytes (noutbytes : Nat) : Nat := if noutbytes ≤ sha512OutBytes then noutbytes else 0

/-- `m_nExpansionFactor`, the first bin apart. -/
def expansionFactor (nbins : Nat) (nelements : Buf Nat) : Nat :=
  loop (fun i factor => if nelements (i + 1) > codeWordBits then codeWordBits else factor)
    (nbins - 1) (if nelements 0 > codeWordBits then codeWordBits else 1)

/-- A server, with the factor its buffers are allocated by. -/
structure OpeMaskingServer extends ServerMasking where
  expansionFactor : Nat

/-- The constructor called by the server, behind its `assert`. -/
def opeMaskingServer (itembitlen maskbitlen nbins : Nat) (nelements : Buf Nat)
    (serverChoices : CBitVector) : Option OpeMaskingServer :=
  if nbins > 0 then
    some ⟨serverMasking itembitlen (ceilDivide maskbitlen 8) nbins nelements serverChoices,
      expansionFactor nbins nelements⟩
  else none

/-- The bytes of `hash_buf`, an unsigned product. -/
def OpeMaskingServer.hashBufBytes (M : OpeMaskingServer) : Nat :=
  M.maskbytelen * M.expansionFactor % 2 ^ 32

/-- `Copy`: an array that is too short grows. -/
def CBitVector.Copy (v : CBitVector) (p : Buf Byte) (pos len : Nat) : CBitVector :=
  if pos + len > v.size then
    ⟨copy (copy (fun _ => 0) 0 v.bits 0 v.size) pos p 0 len, pos + len⟩
  else { v with bits := copy v.bits pos p 0 len }

/-- `ANDBytes`, which does not look at the size. -/
def CBitVector.ANDBytes (v : CBitVector) (p : Buf Byte) (pos len : Nat) : Option CBitVector :=
  if pos + len ≤ v.size then some { v with bits := andInto v.bits pos p 0 len } else none

/-- `XORBytes`, which exits. -/
def CBitVector.XORBytes (v : CBitVector) (p : Buf Byte) (pos len : Nat) : Option CBitVector :=
  if pos + len ≤ v.size then some { v with bits := xorInto v.bits pos p 0 len } else none

/-- `setMask` in a vector that has a size. -/
def setMaskIn (mask : CBitVector) (u : Nat) (uptr code : Buf Byte)
    (Mptr : Fin codeWordBytes → Byte) : Option CBitVector :=
  ((mask.Copy uptr (u * codeWordBytes) codeWordBytes).ANDBytes code (u * codeWordBytes)
    codeWordBytes).bind fun mask => mask.XORBytes (ofRow Mptr) (u * codeWordBytes) codeWordBytes

/-- Mask `u`, where it is read. -/
def CBitVector.maskRow (v : CBitVector) (u : Nat) : Option (Fin codeWordBytes → Byte) :=
  if u * codeWordBytes + codeWordBytes ≤ v.size then some (row codeWordBytes v.bits u) else none

/-- `hash(hash_buf + pos, noutbytes, ..)`, in a block of `size` bytes. -/
def hashInto (size : Nat) (hashBuf : Buf Byte) (pos : Nat) (digest : Buf Byte) (noutbytes : Nat) :
    Option (Buf Byte) :=
  if pos + hashedBytes noutbytes ≤ size then
    some (copy hashBuf pos digest 0 (hashedBytes noutbytes))
  else none

/-- The mask at `hash_buf + pos`, in a block of `size` bytes. -/
def hashBufAt (size maskbytelen : Nat) (hashBuf : Buf Byte) (pos : Nat) : Option (Buf Byte) :=
  if pos + maskbytelen ≤ size then some fun i => hashBuf (pos + i) else none

/-- What `ServerExpand` carries from one OT to the next. -/
structure ExpandState where
  mask : CBitVector
  hashBuf : Buf Byte
  calls : List MaskCall

variable (P : OtCrypto Key)

/-- Element `u` of a bin that is expanded on the fly. `mask_ptr` is older than the copy, which must
not move the array. -/
def expandElement (M : OpeMaskingServer) (uptr : Buf Byte) (otId : Nat)
    (Mptr : Fin codeWordBytes → Byte) (u : Nat) (s : ExpandState) : Option ExpandState :=
  if s.mask.size < codeWordBytes then none
  else (setMaskIn s.mask 0 uptr (P.codeWords (serverChoice M.toServerMasking otId u)) Mptr).bind
    fun mask => (mask.maskRow 0).bind
    fun r => (hashInto M.hashBufBytes s.hashBuf 0 (P.hash (tmpbuf otId r)) M.maskbytelen).bind
    fun hashBuf => (hashBufAt M.hashBufBytes M.maskbytelen hashBuf 0).map
    fun p => ⟨mask, hashBuf,
      s.calls ++ [⟨M.startingPosForBin (otId / M.otsPerElement) + u, p⟩]⟩

/-- The hash of one code word's mask. -/
def hashMask (M : OpeMaskingServer) (otId : Nat) (mask : CBitVector) (u : Nat)
    (hashBuf : Buf Byte) : Option (Buf Byte) :=
  (mask.maskRow u).bind fun r =>
    hashInto M.hashBufBytes hashBuf (u * M.maskbytelen) (P.hash (tmpbuf otId r)) M.maskbytelen

/-- The call for element `u`, whose byte says which hash is taken. -/
def callElement (M : OpeMaskingServer) (otId : Nat) (hashBuf : Buf Byte) (u : Nat)
    (calls : List MaskCall) : Option (List MaskCall) :=
  (hashBufAt M.hashBufBytes M.maskbytelen hashBuf
    (serverChoice M.toServerMasking otId u * M.maskbytelen)).map fun p =>
      calls ++ [⟨M.startingPosForBin (otId / M.otsPerElement) + u, p⟩]

/-- The masks of all code words, then their hashes, then a call for each element. -/
def expandAll (M : OpeMaskingServer) (uptr : Buf Byte) (otId : Nat)
    (Mptr : Fin codeWordBytes → Byte) (s : ExpandState) : Option ExpandState :=
  (loopM (fun u mask => setMaskIn mask u uptr (P.codeWords u) Mptr) codeWordBits s.mask).bind
    fun mask => (loopM (hashMask P M otId mask) codeWordBits s.hashBuf).bind
    fun hashBuf => (loopM (callElement M otId hashBuf)
      (M.numEleInBin (otId / M.otsPerElement)) s.calls).map
    fun calls => ⟨mask, hashBuf, calls⟩

/-- One round of `ServerExpand`, in its buffers. -/
def serverMaskOtIn (M : OpeMaskingServer) (uptr : Buf Byte) (otId : Nat)
    (Mptr : Fin codeWordBytes → Byte) (s : ExpandState) : Option ExpandState :=
  if M.numEleInBin (otId / M.otsPerElement) < codeWordBits then
    loopM (expandElement P M uptr otId Mptr) (M.numEleInBin (otId / M.otsPerElement)) s
  else expandAll P M uptr otId Mptr s

/-- `ServerExpand`, in its buffers. `hash_buf` comes from `malloc`, with anything in it. -/
def serverExpandIn (M : OpeMaskingServer) (matrix uptr hashBuf : Buf Byte)
    (otBeginId processedOTs : Nat) : Option (List MaskCall) :=
  (loopM (fun j => serverMaskOtIn P M uptr (otBeginId + j) (row codeWordBytes matrix j))
    processedOTs
    ⟨⟨fun _ => 0, ceilDivide (codeWordBits * M.expansionFactor) 8⟩, hashBuf, []⟩).map
    ExpandState.calls

/-- What it means that an OT of a full bin has room: the constructor chose the factor for it, and
no access is outside. -/
structure HasRoom (M : OpeMaskingServer) (otId : Nat) : Prop where
  /-- The factor is the number of code words. -/
  factor : M.expansionFactor = codeWordBits
  /-- The round stays in its buffers. -/
  inside : ∀ uptr Mptr s, serverMaskOtIn P M uptr otId Mptr s ≠ none

end Model

/-! ## The growing vector -/

section Mask

/-- The bytes of an array that has grown to hold `len` of them. -/
def CBitVector.grown (v : CBitVector) (len : Nat) : Buf Byte :=
  if len > v.size then copy (fun _ => 0) 0 v.bits 0 v.size else v.bits

theorem CBitVector.Copy_eq (v : CBitVector) (p : Buf Byte) (pos len : Nat) :
    v.Copy p pos len = ⟨copy (v.grown (pos + len)) pos p 0 len, max v.size (pos + len)⟩ := by
  unfold Copy grown
  split
  · next h => rw [Nat.max_eq_right h.le]
  · next h => rw [Nat.max_eq_left (Nat.le_of_not_lt h)]

/-- Growing keeps the rows that were there. -/
theorem CBitVector.row_grown (v : CBitVector) (len : Nat) {u : Nat}
    (h : u * codeWordBytes + codeWordBytes ≤ v.size) :
    row codeWordBytes (v.grown len) u = row codeWordBytes v.bits u := by
  unfold grown
  split
  · exact row_copy_span _ _ (by rwa [Nat.succ_mul])
  · rfl

/-- In a vector that grows there is always room for a mask. -/
theorem setMaskIn_eq (mask : CBitVector) (u : Nat) (uptr code : Buf Byte)
    (Mptr : Fin codeWordBytes → Byte) :
    setMaskIn mask u uptr code Mptr
      = some ⟨setMask (mask.grown (u * codeWordBytes + codeWordBytes)) u uptr code Mptr,
          max mask.size (u * codeWordBytes + codeWordBytes)⟩ := by
  have hroom := Nat.le_max_right mask.size (u * codeWordBytes + codeWordBytes)
  rw [setMaskIn, CBitVector.Copy_eq, CBitVector.ANDBytes, if_pos hroom, Option.bind_some,
    CBitVector.XORBytes, if_pos hroom, setMask, Nat.zero_mul]

/-- Mask `u`, where there is one. -/
def CBitVector.HoldsMask (mask : CBitVector) (u : Nat) (r : Fin codeWordBytes → Byte) : Prop :=
  u * codeWordBytes + codeWordBytes ≤ mask.size ∧ row codeWordBytes mask.bits u = r

theorem CBitVector.HoldsMask.maskRow {mask : CBitVector} {u : Nat} {r : Fin codeWordBytes → Byte}
    (h : mask.HoldsMask u r) : mask.maskRow u = some r := by
  rw [CBitVector.maskRow, if_pos h.1, h.2]

theorem setMaskIn_spec (mask : CBitVector) (u : Nat) (uptr code : Buf Byte)
    (Mptr : Fin codeWordBytes → Byte) :
    ∃ mask', setMaskIn mask u uptr code Mptr = some mask' ∧
      mask'.HoldsMask u (Mptr + row codeWordBytes (selectCode uptr code) 0) ∧
      ∀ v ≠ u, ∀ r, mask.HoldsMask v r → mask'.HoldsMask v r := by
  refine ⟨_, setMaskIn_eq mask u uptr code Mptr, ⟨Nat.le_max_right _ _, ?_⟩, fun v hv r hr => ?_⟩
  · exact row_setMask_same ..
  · refine ⟨hr.1.trans (Nat.le_max_left _ _), ?_⟩
    rw [row_setMask_ne _ _ _ _ hv, CBitVector.row_grown _ _ hr.1, hr.2]

end Mask

/-! ## One OT -/

section OneOt

variable {P : OtCrypto Key} {M : OpeMaskingServer} {uptr : Buf Byte} {otId : Nat}
variable {Mptr : Fin codeWordBytes → Byte} {s : ExpandState}

variable (P uptr Mptr) in
theorem exists_masks (mask : CBitVector) :
    ∃ mask', loopM (fun u mask => setMaskIn mask u uptr (P.codeWords u) Mptr) codeWordBits mask
        = some mask' ∧ ∀ u < codeWordBits, mask'.HoldsMask u (selectedRow P uptr Mptr u) := by
  refine loopM_settles
    (Q := fun u (mask : CBitVector) => mask.HoldsMask u (selectedRow P uptr Mptr u)) codeWordBits
    fun u mask _ => ?_
  obtain ⟨mask', hset, hsame, hne⟩ := setMaskIn_spec mask u uptr (P.codeWords u) Mptr
  exact ⟨mask', hset, hsame, fun k hk => hne k (Nat.ne_of_lt hk) _⟩

variable (otId) in
/-- Hashes that fit all get written. -/
theorem exists_hashes (hroom : ∀ u < codeWordBits,
      u * M.maskbytelen + hashedBytes M.maskbytelen ≤ M.hashBufBytes) {mask : CBitVector}
    (hmask : ∀ u < codeWordBits, mask.HoldsMask u (selectedRow P uptr Mptr u))
    (hashBuf : Buf Byte) :
    ∃ hashBuf', loopM (hashMask P M otId mask) codeWordBits hashBuf = some hashBuf' ∧
      ∀ u < codeWordBits, M.maskbytelen ≤ sha512OutBytes →
        row M.maskbytelen hashBuf' u
          = otMask P M.maskbytelen otId (selectedRow P uptr Mptr u) := by
  refine loopM_settles (Q := fun u hashBuf => M.maskbytelen ≤ sha512OutBytes →
    row M.maskbytelen hashBuf u
      = otMask P M.maskbytelen otId (selectedRow P uptr Mptr u)) codeWordBits fun u hashBuf hu => ?_
  refine ⟨_, by rw [hashMask, (hmask u hu).maskRow, Option.bind_some, hashInto,
    if_pos (hroom u hu)], fun hw => ?_, fun k hk hold hw => ?_⟩
  · have hcopy := row_copy_same hashBuf u (P.hash (tmpbuf otId (selectedRow P uptr Mptr u))) 0
      M.maskbytelen
    rw [Nat.zero_mul] at hcopy
    rw [hashedBytes, if_pos hw, hcopy]
    rfl
  · rw [hashedBytes, if_pos hw, row_copy_ne _ _ _ _ (Nat.ne_of_lt hk), hold hw]

/-- The calls of the elements whose masks lie inside. -/
theorem loopM_callElement {hashBuf : Buf Byte} {n : Nat} (hroom : ∀ u < n,
      serverChoice M.toServerMasking otId u * M.maskbytelen + M.maskbytelen ≤ M.hashBufBytes)
    (calls : List MaskCall) :
    loopM (callElement M otId hashBuf) n calls = some (calls ++ (List.range n).map fun u =>
      ⟨M.startingPosForBin (otId / M.otsPerElement) + u,
        fun i => hashBuf (serverChoice M.toServerMasking otId u * M.maskbytelen + i)⟩) := by
  induction n with
  | zero => rw [loopM_zero, List.range_zero, List.map_nil, List.append_nil]
  | succ n ih =>
      rw [loopM_succ, ih fun u hu => hroom u (Nat.lt_succ_of_lt hu), Option.bind_some, callElement,
        hashBufAt, if_pos (hroom n (Nat.lt_succ_self n)), Option.map_some, List.range_succ,
        List.map_append, List.append_assoc, List.map_singleton]

/-- Where an OT needs room in `hash_buf`. -/
structure OpeMaskingServer.Fits (M : OpeMaskingServer) (otId : Nat) : Prop where
  /-- One hash at the start, for each element of a bin that is expanded on the fly. -/
  element : M.numEleInBin (otId / M.otsPerElement) < codeWordBits →
    0 < M.numEleInBin (otId / M.otsPerElement) → M.maskbytelen ≤ M.hashBufBytes
  /-- The hashes of all code words. -/
  writes : ¬ M.numEleInBin (otId / M.otsPerElement) < codeWordBits → ∀ u < codeWordBits,
    u * M.maskbytelen + hashedBytes M.maskbytelen ≤ M.hashBufBytes
  /-- The masks that are taken. -/
  reads : ¬ M.numEleInBin (otId / M.otsPerElement) < codeWordBits →
    ∀ u < M.numEleInBin (otId / M.otsPerElement),
      serverChoice M.toServerMasking otId u * M.maskbytelen + M.maskbytelen ≤ M.hashBufBytes

theorem hashedBytes_le (noutbytes : Nat) : hashedBytes noutbytes ≤ noutbytes := by
  unfold hashedBytes
  split
  · exact le_rfl
  · exact Nat.zero_le _

/-- The calls between two states add `masks`. A mask longer than every hash gets what was there. -/
def OpeMaskingServer.Adds (M : OpeMaskingServer) (s s' : ExpandState)
    (masks : List (Nat × (Fin M.maskbytelen → Byte))) : Prop :=
  M.maskbytelen ≤ sha512OutBytes → s'.calls.map (MaskCall.masked M.maskbytelen)
    = s.calls.map (MaskCall.masked M.maskbytelen) ++ masks

theorem OpeMaskingServer.Adds.append {s₁ s₂ s₃ : ExpandState}
    {m₁ m₂ : List (Nat × (Fin M.maskbytelen → Byte))}
    (h₁ : M.Adds s₁ s₂ m₁) (h₂ : M.Adds s₂ s₃ m₂) : M.Adds s₁ s₃ (m₁ ++ m₂) := by
  intro hw
  rw [h₂ hw, h₁ hw, List.append_assoc]

variable (P uptr otId Mptr) in
/-- The call of an element that is expanded on the fly. -/
theorem expandElement_spec (u : Nat) (hmask : codeWordBytes ≤ s.mask.size)
    (hfits : M.maskbytelen ≤ M.hashBufBytes) :
    ∃ s', expandElement P M uptr otId Mptr u s = some s' ∧ codeWordBytes ≤ s'.mask.size ∧
      M.Adds s s' [elementMask P M.toServerMasking uptr otId Mptr u] := by
  obtain ⟨mask', hset, hrow, -⟩ := setMaskIn_spec s.mask 0 uptr
    (P.codeWords (serverChoice M.toServerMasking otId u)) Mptr
  have hhash : 0 + hashedBytes M.maskbytelen ≤ M.hashBufBytes := by
    rw [Nat.zero_add]
    exact (hashedBytes_le _).trans hfits
  have hread : 0 + M.maskbytelen ≤ M.hashBufBytes := by rwa [Nat.zero_add]
  have hsize := hrow.1
  rw [Nat.zero_mul, Nat.zero_add] at hsize
  refine ⟨_, by rw [expandElement, if_neg (Nat.not_lt.mpr hmask), hset, Option.bind_some,
    hrow.maskRow, Option.bind_some, hashInto, if_pos hhash, Option.bind_some, hashBufAt,
    if_pos hread, Option.map_some], hsize, fun hw => ?_⟩
  have hcopy : row M.maskbytelen (copy s.hashBuf 0 (P.hash (tmpbuf otId (selectedRow P uptr Mptr
      (serverChoice M.toServerMasking otId u)))) 0 M.maskbytelen) 0
      = row M.maskbytelen (P.hash (tmpbuf otId (selectedRow P uptr Mptr
        (serverChoice M.toServerMasking otId u)))) 0 :=
    row_copy_span _ _ (by rw [Nat.zero_add, Nat.one_mul])
  rw [List.map_append, List.map_singleton, MaskCall.masked, elementMask, otMask, ← hcopy,
    hashedBytes, if_pos hw]
  simp only [Nat.zero_add]
  rfl

/-- The calls of a bin whose elements are expanded on the fly. -/
theorem loopM_expandElement (hmask : codeWordBytes ≤ s.mask.size) (n : Nat)
    (hfits : 0 < n → M.maskbytelen ≤ M.hashBufBytes) :
    ∃ s', loopM (expandElement P M uptr otId Mptr) n s = some s' ∧
      codeWordBytes ≤ s'.mask.size ∧
      M.Adds s s' ((List.range n).map (elementMask P M.toServerMasking uptr otId Mptr)) := by
  refine loopM_total (P := fun k (s' : ExpandState) => codeWordBytes ≤ s'.mask.size ∧
    M.Adds s s' ((List.range k).map (elementMask P M.toServerMasking uptr otId Mptr))) n
    ⟨hmask, fun _ => (List.append_nil _).symm⟩ ?_
  intro u t hu ht
  obtain ⟨t', hstep, hsize, hcalls⟩ := expandElement_spec P uptr otId Mptr u ht.1
    (hfits (Nat.zero_lt_of_lt hu))
  refine ⟨t', hstep, hsize, ?_⟩
  rw [List.range_succ, List.map_append]
  exact ht.2.append hcalls

variable (P uptr Mptr s) in
/-- The calls of a bin for which all code words are hashed. -/
theorem expandAll_spec (hwrites : ∀ u < codeWordBits,
      u * M.maskbytelen + hashedBytes M.maskbytelen ≤ M.hashBufBytes)
    (hreads : ∀ u < M.numEleInBin (otId / M.otsPerElement),
      serverChoice M.toServerMasking otId u * M.maskbytelen + M.maskbytelen ≤ M.hashBufBytes) :
    ∃ s', expandAll P M uptr otId Mptr s = some s' ∧ codeWordBytes ≤ s'.mask.size ∧
      M.Adds s s' ((List.range (M.numEleInBin (otId / M.otsPerElement))).map
        (elementMask P M.toServerMasking uptr otId Mptr)) := by
  obtain ⟨mask', hmasks, hrow⟩ := exists_masks P uptr Mptr s.mask
  obtain ⟨hashBuf', hhashes, hhash⟩ := exists_hashes otId hwrites hrow s.hashBuf
  have hsize := (hrow 0 (Nat.zero_lt_succ _)).1
  rw [Nat.zero_mul, Nat.zero_add] at hsize
  refine ⟨_, by rw [expandAll, hmasks, Option.bind_some, hhashes, Option.bind_some,
    loopM_callElement hreads, Option.map_some], hsize, fun hw => ?_⟩
  rw [List.map_append, List.map_map]
  refine congrArg (_ ++ ·) (List.map_congr_left fun u _ => ?_)
  have hchoice : serverChoice M.toServerMasking otId u < codeWordBits := CBitVector.get8_lt _ _
  rw [elementMask, ← hhash _ hchoice hw]
  exact Prod.ext rfl (row_offset ..)

variable (P uptr Mptr) in
/-- **A round that fits makes the calls of the round that knows no lengths**, as far as they
are read. -/
theorem serverMaskOtIn_spec (hmask : codeWordBytes ≤ s.mask.size) (hfits : M.Fits otId) :
    ∃ s', serverMaskOtIn P M uptr otId Mptr s = some s' ∧ codeWordBytes ≤ s'.mask.size ∧
      M.Adds s s' ((serverMaskOt P M.toServerMasking uptr otId Mptr).map
        (MaskCall.masked M.maskbytelen)) := by
  rw [masked_serverMaskOt]
  unfold serverMaskOtIn
  split
  · next hsmall => exact loopM_expandElement hmask _ (hfits.element hsmall)
  · next hfull => exact expandAll_spec P uptr Mptr s (hfits.writes hfull) (hfits.reads hfull)

/-- A round that hashes all code words without leaving its buffers had room for the hashes and
for the masks that are taken. -/
theorem room_of_serverMaskOtIn (hfull : ¬ M.numEleInBin (otId / M.otsPerElement) < codeWordBits)
    (h : serverMaskOtIn P M uptr otId Mptr s ≠ none) :
    (∀ u < codeWordBits, u * M.maskbytelen + hashedBytes M.maskbytelen ≤ M.hashBufBytes) ∧
      ∀ u < M.numEleInBin (otId / M.otsPerElement),
        serverChoice M.toServerMasking otId u * M.maskbytelen + M.maskbytelen
          ≤ M.hashBufBytes := by
  obtain ⟨s', hs⟩ := Option.ne_none_iff_exists'.mp h
  rw [serverMaskOtIn, if_neg hfull, expandAll] at hs
  obtain ⟨mask, -, hs⟩ := Option.bind_eq_some_iff.mp hs
  obtain ⟨hashBuf, hhashes, hs⟩ := Option.bind_eq_some_iff.mp hs
  obtain ⟨calls, hcalls, -⟩ := Option.map_eq_some_iff.mp hs
  refine ⟨fun u hu => ?_, fun u hu => ?_⟩
  · obtain ⟨hashBuf₁, hashBuf₂, hround⟩ := loopM_round hhashes hu
    obtain ⟨r, -, hround⟩ := Option.bind_eq_some_iff.mp hround
    by_contra hout
    rw [hashInto, if_neg hout] at hround
    cases hround
  · obtain ⟨calls₁, calls₂, hround⟩ := loopM_round hcalls hu
    by_contra hout
    rw [callElement, hashBufAt, if_neg hout] at hround
    cases hround

end OneOt

/-! ## All OTs -/

section Run

variable {P : OtCrypto Key} {M : OpeMaskingServer} {uptr : Buf Byte}

variable (P uptr) in
/-- **In buffers that fit `ServerExpand` makes its calls**, as far as they are read. -/
theorem serverExpandIn_spec (hfactor : 0 < M.expansionFactor) {otBeginId processedOTs : Nat}
    (hfits : ∀ j < processedOTs, M.Fits (otBeginId + j)) (hw : M.maskbytelen ≤ sha512OutBytes)
    (matrix hashBuf : Buf Byte) :
    ∃ calls, serverExpandIn P M matrix uptr hashBuf otBeginId processedOTs = some calls ∧
      calls.map (MaskCall.masked M.maskbytelen)
        = (serverExpand P M.toServerMasking matrix uptr otBeginId processedOTs).map
          (MaskCall.masked M.maskbytelen) := by
  have hmask : codeWordBytes ≤ ceilDivide (codeWordBits * M.expansionFactor) 8 := by
    rw [ceilDivide_eight, codeWordBits, codeWordBytes]
    omega
  have hrun := loopM_total (P := fun k (s : ExpandState) =>
      codeWordBytes ≤ s.mask.size ∧ s.calls.map (MaskCall.masked M.maskbytelen)
        = (serverExpand P M.toServerMasking matrix uptr otBeginId k).map
          (MaskCall.masked M.maskbytelen))
    (f := fun j => serverMaskOtIn P M uptr (otBeginId + j) (row codeWordBytes matrix j))
    (s := ⟨⟨fun _ => 0, ceilDivide (codeWordBits * M.expansionFactor) 8⟩, hashBuf, []⟩)
    processedOTs ⟨hmask, rfl⟩ fun j t hj ht => by
      obtain ⟨t', hstep, hsize, hadds⟩ := serverMaskOtIn_spec P uptr
        (row codeWordBytes matrix j) ht.1 (hfits j hj)
      refine ⟨t', hstep, hsize, ?_⟩
      rw [hadds hw, ht.2, serverExpand, serverExpand, List.range_succ, List.flatMap_append,
        List.flatMap_singleton, List.map_append]
  obtain ⟨s, hs, -, hcalls⟩ := hrun
  exact ⟨s.calls, by rw [serverExpandIn, hs, Option.map_some], hcalls⟩

end Run

/-! ## What the constructor allocates -/

section Constructor

variable {itembitlen maskbitlen nbins : Nat} {nelements : Buf Nat} {serverChoices : CBitVector}
variable {M : OpeMaskingServer}

/-- The factor asks for more elements than there are code words, in any bin. -/
theorem expansionFactor_eq (hnbins : 0 < nbins) (nelements : Buf Nat) :
    expansionFactor nbins nelements
      = if ∃ b < nbins, codeWordBits < nelements b then codeWordBits else 1 := by
  have hloop := loop_induct (P := fun i (factor : Nat) => factor
      = if ∃ b < i + 1, codeWordBits < nelements b then codeWordBits else 1)
    (f := fun i factor => if nelements (i + 1) > codeWordBits then codeWordBits else factor)
    (s := if nelements 0 > codeWordBits then codeWordBits else 1) (nbins - 1) ?_ ?_
  · rw [Nat.sub_add_cancel hnbins] at hloop
    exact hloop
  · refine if_congr ⟨fun h => ⟨0, Nat.zero_lt_succ 0, h⟩, fun h => ?_⟩ rfl rfl
    obtain ⟨b, hb, hlt⟩ := h
    rwa [Nat.lt_one_iff.mp hb] at hlt
  · intro i factor _ hfactor
    split
    · next h => exact (if_pos ⟨i + 1, Nat.lt_succ_self _, h⟩).symm
    · next h =>
        rw [hfactor]
        refine if_congr ⟨fun hb => ?_, fun hb => ?_⟩ rfl rfl
        · obtain ⟨b, hb, hlt⟩ := hb
          exact ⟨b, Nat.lt_succ_of_lt hb, hlt⟩
        · obtain ⟨b, hb, hlt⟩ := hb
          refine ⟨b, Nat.lt_of_le_of_ne (Nat.le_of_lt_succ hb) fun heq => h ?_, hlt⟩
          rwa [← heq]

/-- The constructor's test and the one of `ServerExpand` come to the same for these bins, and the
room for all hashes can be asked for. -/
def TestsAgree (maskbitlen nbins : Nat) (nelements : Buf Nat) : Prop :=
  (∀ b < nbins, nelements b < codeWordBits) ∨
    ((∃ b < nbins, codeWordBits < nelements b) ∧
      ceilDivide maskbitlen 8 * codeWordBits < 2 ^ 32)

instance (maskbitlen nbins : Nat) (nelements : Buf Nat) :
    Decidable (TestsAgree maskbitlen nbins nelements) :=
  inferInstanceAs (Decidable (_ ∨ _))

theorem opeMaskingServer_some
    (h : opeMaskingServer itembitlen maskbitlen nbins nelements serverChoices = some M) :
    0 < nbins ∧ M = ⟨serverMasking itembitlen (ceilDivide maskbitlen 8) nbins nelements
      serverChoices, expansionFactor nbins nelements⟩ := by
  unfold opeMaskingServer at h
  split at h
  · next hpos => exact ⟨hpos, (Option.some.inj h).symm⟩
  · cases h

/-- **Where the tests agree every OT fits.** -/
theorem fits_of_testsAgree (hagree : TestsAgree maskbitlen nbins nelements)
    (hmask : maskbitlen < 2 ^ 32)
    (hM : opeMaskingServer itembitlen maskbitlen nbins nelements serverChoices = some M)
    {otId : Nat} (hot : otId < nbins * M.otsPerElement) : M.Fits otId := by
  obtain ⟨hnbins, rfl⟩ := opeMaskingServer_some hM
  have hbin := bin_lt le_rfl hot
  have hw : ceilDivide maskbitlen 8 < 2 ^ 32 := by
    rw [ceilDivide_eight]
    omega
  by_cases hover : ∃ b < nbins, codeWordBits < nelements b
  · -- there is room for 256 masks
    have hbytes : ceilDivide maskbitlen 8 * codeWordBits < 2 ^ 32 := by
      rcases hagree with hsmall | hlarge
      · obtain ⟨b, hb, hlt⟩ := hover
        exact absurd (hsmall b hb) (Nat.not_lt.mpr hlt.le)
      · exact hlarge.2
    have hsize : OpeMaskingServer.hashBufBytes ⟨serverMasking itembitlen (ceilDivide maskbitlen 8)
        nbins nelements serverChoices, expansionFactor nbins nelements⟩
          = codeWordBits * ceilDivide maskbitlen 8 := by
      rw [OpeMaskingServer.hashBufBytes, expansionFactor_eq hnbins, if_pos hover]
      exact (Nat.mod_eq_of_lt hbytes).trans (Nat.mul_comm _ _)
    refine ⟨fun _ _ => ?_, fun _ u hu => ?_, fun _ u _ => ?_⟩
    · rw [hsize]
      exact Nat.le_mul_of_pos_left _ (Nat.zero_lt_succ _)
    · rw [hsize]
      exact (Nat.add_le_add_left (hashedBytes_le _) _).trans (row_end_le _ hu)
    · rw [hsize]
      exact row_end_le _ (CBitVector.get8_lt _ _)
  · -- no bin takes the other branch
    have hsmall : ∀ b < nbins, nelements b < codeWordBits :=
      hagree.resolve_right fun hlarge => hover hlarge.1
    refine ⟨fun _ _ => ?_, fun hfull => absurd (hsmall _ hbin) hfull,
      fun hfull => absurd (hsmall _ hbin) hfull⟩
    rw [OpeMaskingServer.hashBufBytes, expansionFactor_eq hnbins, if_neg hover, Nat.mul_one]
    exact (Nat.mod_eq_of_lt hw).ge

theorem hasRoom_of_testsAgree (P : OtCrypto Key) (hagree : TestsAgree maskbitlen nbins nelements)
    (hM : opeMaskingServer itembitlen maskbitlen nbins nelements serverChoices = some M)
    {otId : Nat} (hot : otId < nbins * M.otsPerElement)
    (hfull : ¬ M.numEleInBin (otId / M.otsPerElement) < codeWordBits) : HasRoom P M otId := by
  obtain ⟨hnbins, hMeq⟩ := opeMaskingServer_some hM
  have hnele : M.numEleInBin = nelements := by rw [hMeq]; rfl
  rcases hagree with hsmall | hlarge
  · rw [hnele] at hfull
    exact absurd (hsmall _ (bin_lt le_rfl hot)) hfull
  · have hmask : maskbitlen < 2 ^ 32 := by
      have hle := le_ceilDivide_mul maskbitlen (y := 8) (by decide)
      have hlt := hlarge.2
      rw [codeWordBits] at hlt
      omega
    have hfits := fits_of_testsAgree (Or.inr hlarge) hmask hM hot
    refine ⟨?_, fun uptr Mptr s => ?_⟩
    · rw [hMeq]
      exact (expansionFactor_eq hnbins nelements).trans (if_pos hlarge.1)
    · obtain ⟨s', hs, -⟩ := expandAll_spec P uptr Mptr s
        (hfits.writes hfull) (hfits.reads hfull)
      rw [serverMaskOtIn, if_neg hfull, hs]
      exact Option.some_ne_none s'

/-- Choices in which every byte selects the last code word, long enough for index `i`. -/
def lastChoices (i : Nat) : CBitVector := ⟨fun _ => XorVec.ofBits 255#8, i + 1⟩

theorem get8_lastChoices (i : Nat) : (lastChoices i).get8 i = 255 := by
  rw [CBitVector.get8_eq (Nat.lt_succ_self i)]
  rfl

/-- A bin with 256 elements or more, with room in every run, makes the tests agree. -/
theorem testsAgree_of_hasRoom (P : OtCrypto Key) (hitem : 0 < itembitlen)
    (hroom : ∀ serverChoices M,
      opeMaskingServer itembitlen maskbitlen nbins nelements serverChoices = some M →
      ∀ otId < nbins * M.otsPerElement,
        ¬ M.numEleInBin (otId / M.otsPerElement) < codeWordBits → HasRoom P M otId)
    {b : Nat} (hb : b < nbins) (hfull : codeWordBits ≤ nelements b) :
    TestsAgree maskbitlen nbins nelements := by
  have hots : 0 < ceilDivide itembitlen 8 := by
    rw [ceilDivide_eight]
    omega
  have hnbins := Nat.zero_lt_of_lt hb
  -- the first OT of the bin, whose first element takes the last hash
  generalize hot : b * ceilDivide itembitlen 8 = otId
  have hbin : otId / ceilDivide itembitlen 8 = b := by
    rw [← hot]
    exact Nat.mul_div_cancel b hots
  have hfull' : ¬ nelements (otId / ceilDivide itembitlen 8) < codeWordBits := by
    rw [hbin]
    exact Nat.not_lt.mpr hfull
  have hlt : otId < nbins * ceilDivide itembitlen 8 := by
    rw [← hot]
    exact Nat.mul_lt_mul_of_pos_right hb hots
  let i := startingPosForBin nbins nelements (otId / ceilDivide itembitlen 8)
    * ceilDivide itembitlen 8 + otId % ceilDivide itembitlen 8 + 0 * ceilDivide itembitlen 8
  have h := hroom (lastChoices i) _ (if_pos hnbins) otId hlt hfull'
  have hover : ∃ b < nbins, codeWordBits < nelements b := by
    by_contra hnone
    have hfactor := h.factor
    dsimp only at hfactor
    rw [expansionFactor_eq hnbins, if_neg hnone] at hfactor
    exact absurd hfactor (by decide)
  have hread := (room_of_serverMaskOtIn hfull' (h.inside (fun _ => 0) 0
    ⟨⟨fun _ => 0, 0⟩, fun _ => 0, []⟩)).2 0 (Nat.lt_of_lt_of_le (Nat.zero_lt_succ _)
      (Nat.le_of_not_lt hfull'))
  have hchoice : serverChoice (serverMasking itembitlen (ceilDivide maskbitlen 8) nbins nelements
      (lastChoices i)) otId 0 = 255 := get8_lastChoices i
  rw [hchoice, OpeMaskingServer.hashBufBytes, h.factor] at hread
  refine Or.inr ⟨hover, ?_⟩
  calc ceilDivide maskbitlen 8 * codeWordBits
      = 255 * ceilDivide maskbitlen 8 + ceilDivide maskbitlen 8 := by
        rw [codeWordBits]
        ring
    _ ≤ ceilDivide maskbitlen 8 * codeWordBits % 2 ^ 32 := hread
    _ < 2 ^ 32 := Nat.mod_lt _ (by decide)

/-- **When the precomputing branch has its room**: the tests must agree, which they do unless some
bin has exactly 256 elements and none has more. -/
theorem precomputing_hasRoom_iff (P : OtCrypto Key) (itembitlen maskbitlen nbins : Nat)
    (nelements : Buf Nat) :
    (∀ serverChoices M,
        opeMaskingServer itembitlen maskbitlen nbins nelements serverChoices = some M →
        ∀ otId < nbins * M.otsPerElement,
          ¬ M.numEleInBin (otId / M.otsPerElement) < codeWordBits → HasRoom P M otId)
      ↔ itembitlen = 0 ∨ TestsAgree maskbitlen nbins nelements := by
  refine ⟨fun hroom => ?_, fun hcond serverChoices M hM otId hot hfull => ?_⟩
  · rcases Nat.eq_zero_or_pos itembitlen with hitem | hitem
    · exact Or.inl hitem
    · by_cases hsmall : ∀ b < nbins, nelements b < codeWordBits
      · exact Or.inr (Or.inl hsmall)
      · push Not at hsmall
        obtain ⟨b, hb, hfull⟩ := hsmall
        exact Or.inr (testsAgree_of_hasRoom P hitem hroom hb hfull)
  · rcases hcond with hitem | hagree
    · -- items without a byte need no OT
      obtain ⟨-, rfl⟩ := opeMaskingServer_some hM
      subst hitem
      exact absurd hot (Nat.not_lt_zero otId)
    · exact hasRoom_of_testsAgree P hagree hM hot hfull

/-- One bin with as many elements as code words is harmless next to one with more. -/
example : TestsAgree 64 2 (fun b => if b = 0 then 256 else 257) := by decide

/-- As many elements as code words in one bin, and no bin with more. -/
def boundaryBin : Buf Nat := fun b => if b = 0 then 256 else 1

/-- The server with these bins, for items of one byte and masks of eight. -/
def boundaryServer : OpeMaskingServer :=
  ⟨serverMasking 8 8 2 boundaryBin (lastChoices 0), expansionFactor 2 boundaryBin⟩

/-- There is room for one hash, and the second one is written behind it. -/
theorem boundaryBin_leavesBuffer :
    (∀ (P : OtCrypto Unit) uptr Mptr s, serverMaskOtIn P boundaryServer uptr 0 Mptr s = none) ∧
      ¬ ∀ (P : OtCrypto Unit) (itembitlen maskbitlen nbins : Nat) (nelements : Buf Nat)
        (serverChoices : CBitVector) (M : OpeMaskingServer),
        opeMaskingServer itembitlen maskbitlen nbins nelements serverChoices = some M →
        ∀ otId < nbins * M.otsPerElement,
          ¬ M.numEleInBin (otId / M.otsPerElement) < codeWordBits → HasRoom P M otId := by
  have hout : ∀ (P : OtCrypto Unit) uptr Mptr s,
      serverMaskOtIn P boundaryServer uptr 0 Mptr s = none := by
    intro P uptr Mptr s
    by_contra hin
    have hroom := (room_of_serverMaskOtIn (by decide) hin).1 1 (by decide)
    exact absurd hroom (by decide)
  refine ⟨hout, fun hall => ?_⟩
  have h := hall ⟨fun _ _ _ => 0, fun _ _ => 0, fun _ _ => 0, fun _ _ m => m⟩ 8 64 2 boundaryBin
    (lastChoices 0) boundaryServer rfl 0 (by decide) (by decide)
  exact h.inside (fun _ => 0) 0 ⟨⟨fun _ => 0, 0⟩, fun _ => 0, []⟩ (hout _ _ _ _)

/-! ## The batches of a run -/

/-- **Where the tests agree `ServerExpand` does to the results what it is to do**, in every batch of
every thread of `oprg_server`. -/
theorem xorMaskCalls_serverExpandIn (P : OtCrypto Key)
    (hagree : TestsAgree maskbitlen nbins nelements) (hmask : maskbitlen ≤ 8 * sha512OutBytes)
    (hM : opeMaskingServer itembitlen maskbitlen nbins nelements serverChoices = some M)
    {numOTs my id : Nat} (hnumOTs : numOTs = nbins * ceilDivide itembitlen 8)
    (matrix uptr hashBuf : Buf Byte) (nProgress : Nat) :
    ∃ calls, serverExpandIn P M matrix uptr hashBuf nProgress
        (processedOTs (threadLim numOTs my id) nProgress) = some calls ∧
      ∀ results, xorMaskCalls M.maskbytelen calls results
        = xorMaskCalls M.maskbytelen (serverExpand P M.toServerMasking matrix uptr nProgress
          (processedOTs (threadLim numOTs my id) nProgress)) results := by
  obtain ⟨hnbins, hMeq⟩ := opeMaskingServer_some hM
  rw [sha512OutBytes] at hmask
  have hw : M.maskbytelen ≤ sha512OutBytes := by
    rw [hMeq, sha512OutBytes]
    show ceilDivide maskbitlen 8 ≤ 64
    rw [ceilDivide_eight]
    omega
  have hfactor : 0 < M.expansionFactor := by
    rw [hMeq]
    dsimp only
    rw [expansionFactor_eq hnbins]
    split <;> decide
  have hots : nbins * M.otsPerElement = numOTs := by rw [hnumOTs, hMeq]; rfl
  have hfits : ∀ j < processedOTs (threadLim numOTs my id) nProgress, M.Fits (nProgress + j) := by
    intro j hj
    have hbatch : processedOTs (threadLim numOTs my id) nProgress
        ≤ threadLim numOTs my id - nProgress := Nat.min_le_left _ _
    have hlim : threadLim numOTs my id ≤ numOTs := Nat.min_le_right _ _
    refine fits_of_testsAgree hagree (by omega) hM ?_
    rw [hots]
    omega
  obtain ⟨calls, hrun, hcalls⟩ := serverExpandIn_spec P uptr hfactor hfits hw matrix hashBuf
  exact ⟨calls, hrun, xorMaskCalls_congr hcalls⟩

end Constructor

end MultiPartyPSI
