import MultiPartyPSI.Lib.LittleEndian
import MultiPartyPSI.Lib.PointerTable
import MultiPartyPSI.Party.HashInfo

/-!
# The leader of two parties

`TwoPartyLeader::run` calls `otpsi_find_intersection`, which puts the leader's masks into a hash
table and looks up those of the follower. All keys are passed in the one variable `tmpbuf`, so the
table knows the masks by their 32-bit hashes only. A lookup finds the last element with the hash of
the query, and the table is asked once for every mask of the follower, also for those it sent twice.

`Agrees` is the comparison the code makes, and `findsIntersection_iff` says for which inputs it
makes no difference.
-/

namespace MultiPartyPSI

open Lib Buf

/-- The arguments of `otpsi_find_intersection`. -/
structure FindArgs where
  myHashes : Buf Byte
  myNeles : Nat
  paHashes : Buf Byte
  paNeles : Nat
  hashbytelen : Nat
  hashInfo : Buf CuckooHashInfo

section Model

variable (gInt64Hash : Nat → Nat) (a : FindArgs)

/-- `keys_stored`. -/
def FindArgs.keysStored : Nat := if 8 < a.hashbytelen then 2 else 1

/-- `tmp_hashbytelen`. -/
def FindArgs.tmpHashbytelen : Nat := if 8 < a.hashbytelen then 8 else a.hashbytelen

/-- `hashInfo[i].tableIndex*hashbytelen`. The product with `-1` is unsigned in the code, and
leads as far behind the array as the negative number leads before it. -/
def FindArgs.offset (i : Nat) : Int := (a.hashInfo i).tableIndex * a.hashbytelen

/-- `my_hashes` can be read for `n` bytes from `offset + skip` on. -/
def FindArgs.Inside (i skip n : Nat) : Prop :=
  0 ≤ a.offset i ∧ a.offset i + (skip + n : Nat) ≤ (a.myNeles * a.hashbytelen : Nat)

instance (i skip n : Nat) : Decidable (a.Inside i skip n) :=
  inferInstanceAs (Decidable (_ ∧ _))

/-- The remainder of mask `i` and then `i`, into `tmpkeys + 2*i`. -/
def storeKey (i : Nat) (tmpkeys : Buf Byte) : Option (Buf Byte) :=
  if a.Inside i 8 (a.hashbytelen - 8) ∧ 8 * i + (a.hashbytelen - 8) ≤ 8 * a.myNeles then
    some (copy (copy tmpkeys (8 * i) a.myHashes ((a.offset i).toNat + 8) (a.hashbytelen - 8))
      (8 * i + 4) (ofNatLE i) 0 4)
  else none

/-- `tmpkeys`, as bytes. -/
def storeKeys : Option (Buf Byte) :=
  if 8 < a.hashbytelen then loopM (storeKey a) a.myNeles fun _ => 0
  else some (loop (fun i tmpkeys => copy tmpkeys (4 * i) (ofNatLE i) 0 4) a.myNeles fun _ => 0)

/-- `tmpbuf` and `map`. The only key is the address of `tmpbuf`, and a value is an index of
`tmpkeys`. -/
structure KeyTable where
  tmpbuf : Buf Byte
  map : List (PointerEntry Unit Nat)

/-- The insertion of mask `i`. -/
def insertKey (i : Nat) (s : KeyTable) : Option KeyTable :=
  if a.Inside i 0 a.tmpHashbytelen then
    let tmpbuf := copy (fun _ => 0) 0 a.myHashes (a.offset i).toNat a.tmpHashbytelen
    some ⟨tmpbuf, PointerTable.insert gInt64Hash (fun _ => loadLE tmpbuf 0 8) s.map ()
      (i * a.keysStored)⟩
  else none

/-- The variables of the loop over the follower's masks. -/
structure QueryState where
  tmpbuf : Buf Byte
  matched : Buf Nat
  intersectCtr : Nat

/-- `matches[intersect_ctr] = index`, and the counter is increased. It fails when `matches` is
full. -/
def addMatch (index : Nat) (s : QueryState) : Option QueryState :=
  if s.intersectCtr < a.myNeles then
    some { s with matched := s.matched.write s.intersectCtr index,
                  intersectCtr := s.intersectCtr + 1 }
  else none

/-- The query for the follower's mask `i`. -/
def queryKey (tmpkeys : Buf Byte) (map : List (PointerEntry Unit Nat)) (i : Nat)
    (s : QueryState) : Option QueryState :=
  let tmpbuf := copy s.tmpbuf 0 a.paHashes (i * a.hashbytelen) a.tmpHashbytelen
  match PointerTable.lookup gInt64Hash (fun _ => loadLE tmpbuf 0 8) map () with
  | none => some { s with tmpbuf := tmpbuf }
  | some tmpval =>
      if 1 < a.keysStored then
        if a.hashbytelen - 8 ≤ 8 then
          let tmpbuf := copy (fun _ => 0) 0 a.paHashes (i * a.hashbytelen + 8) (a.hashbytelen - 8)
          if loadLE tmpbuf 0 8 % 2 ^ 32 = loadLE tmpkeys (4 * tmpval) 4 then
            addMatch a (loadLE tmpkeys (4 * tmpval + 4) 4) { s with tmpbuf := tmpbuf }
          else some { s with tmpbuf := tmpbuf }
        else none
      else addMatch a (loadLE tmpkeys (4 * tmpval) 4) { s with tmpbuf := tmpbuf }

/-- `otpsi_find_intersection`: `*result`, whose length it returns. It fails where it would read or
write outside of its arrays. -/
def otpsiFindIntersection : Option (List Nat) := do
  let tmpkeys ← storeKeys a
  let table ← loopM (insertKey gInt64Hash a) a.myNeles ⟨fun _ => 0, []⟩
  let s ← loopM (queryKey gInt64Hash a tmpkeys table.map) a.paNeles
    ⟨table.tmpbuf, fun _ => 0, 0⟩
  return (List.range s.intersectCtr).map s.matched

/-- `TwoPartyLeader::run`, after the masks of the follower were received. -/
def twoPartyLeaderRun (leaderResults partiesResults : Buf Byte) (setSize maskSizeInBytes : Nat)
    (hashInfo : Buf CuckooHashInfo) : Option Nat :=
  (otpsiFindIntersection gInt64Hash ⟨leaderResults, setSize, partiesResults,
    setSize * numHashFunctions, maskSizeInBytes, hashInfo⟩).map List.length

end Model

/-! ## What is compared -/

section Compare

variable (gInt64Hash : Nat → Nat) (a : FindArgs)

/-- Element `i` has a place in the leader's table. -/
def FindArgs.Placed (i : Nat) : Prop := (a.hashInfo i).tableIndex ≠ -1

/-- The row of its mask. -/
def FindArgs.place (i : Nat) : Nat := (a.hashInfo i).tableIndex.toNat

/-- What `runAsLeader` writes into `hashInfo`. -/
def FindArgs.InfoInRange : Prop := ∀ i < a.myNeles,
  (a.hashInfo i).tableIndex = -1 ∨ ∃ t < a.myNeles, (a.hashInfo i).tableIndex = (t : Int)

/-- The mask of element `i` is one of the follower's masks. -/
def FindArgs.Occurs (i : Nat) : Prop := ∃ j < a.paNeles,
  row a.hashbytelen a.paHashes j = row a.hashbytelen a.myHashes (a.place i)

/-- The first eight bytes of the mask in row `k`. -/
def FindArgs.prefixOf (masks : Buf Byte) (k : Nat) : Nat :=
  loadLE masks (k * a.hashbytelen) (min a.hashbytelen 8)

/-- The next four bytes, as far as the mask goes. -/
def FindArgs.wordAfter (masks : Buf Byte) (k : Nat) : Nat :=
  loadLE masks (k * a.hashbytelen + 8) (min (a.hashbytelen - 8) 4)

/-- The hash that the mask of element `i` is stored with. -/
def FindArgs.storedHash (i : Nat) : Nat := gInt64Hash (a.prefixOf a.myHashes (a.place i))

/-- No later element has the stored hash of element `i`. -/
def FindArgs.LastWithHash (i : Nat) : Prop :=
  ∀ i' < a.myNeles, i < i' → a.storedHash gInt64Hash i' ≠ a.storedHash gInt64Hash i

/-- What the code compares of the masks of element `i` and of row `j`: the hashes and, of masks with
more than eight bytes, the next four. -/
def FindArgs.Agrees (i j : Nat) : Prop :=
  a.storedHash gInt64Hash i = gInt64Hash (a.prefixOf a.paHashes j) ∧
    (8 < a.hashbytelen → a.wordAfter a.myHashes (a.place i) = a.wordAfter a.paHashes j)

/-- The intersection is found: the result lists the placed elements whose masks occur among the
follower's, each of them once. -/
def FindsIntersection : Prop :=
  ∃ result, otpsiFindIntersection gInt64Hash a = some result ∧ result.Nodup ∧
    ∀ i, i ∈ result ↔ i < a.myNeles ∧ a.Placed i ∧ a.Occurs i

variable {gInt64Hash a}

/-- The array that `runAsLeader` fills is in range. -/
theorem FindArgs.infoInRange_of_hashInfo {V : Type*} {nbins : Nat} {out : CuckooOutput V}
    {fresh : Buf CuckooHashInfo}
    (h : a.hashInfo = MultiPartyPSI.hashInfo a.myNeles nbins out fresh) : a.InfoInRange := by
  intro i hi
  rw [h]
  exact hashInfo_tableIndex_range nbins out fresh hi

theorem FindArgs.tmpHashbytelen_eq : a.tmpHashbytelen = min a.hashbytelen 8 := by
  unfold tmpHashbytelen
  split
  · omega
  · omega

theorem FindArgs.offset_toNat (i : Nat) : (a.offset i).toNat = a.place i * a.hashbytelen := by
  unfold offset place
  rcases Int.le_total 0 (a.hashInfo i).tableIndex with hpos | hneg
  · obtain ⟨t, ht⟩ := Int.eq_ofNat_of_zero_le hpos
    rw [ht, ← Int.natCast_mul, Int.toNat_natCast, Int.toNat_natCast]
  · rw [Int.toNat_of_nonpos hneg, Nat.zero_mul]
    exact Int.toNat_of_nonpos (Int.mul_nonpos_of_nonpos_of_nonneg hneg (Int.natCast_nonneg _))

/-- A mask can be read exactly when its element is placed, or there is nothing to read. -/
theorem FindArgs.inside_iff (hinfo : a.InfoInRange) {i skip n : Nat} (hi : i < a.myNeles)
    (hn : skip + n ≤ a.hashbytelen) :
    a.Inside i skip n ↔ (0 < a.hashbytelen → a.Placed i) := by
  unfold Inside offset Placed
  rcases hinfo i hi with h | ⟨t, ht, h⟩
  · rw [h]
    omega
  · have hend : t * a.hashbytelen + a.hashbytelen ≤ a.myNeles * a.hashbytelen := row_end_le _ ht
    rw [h, ← Int.natCast_mul]
    omega

theorem FindArgs.agrees_of_row {i j : Nat}
    (h : row a.hashbytelen a.paHashes j = row a.hashbytelen a.myHashes (a.place i)) :
    a.Agrees gInt64Hash i j := by
  have hbyte : ∀ k < a.hashbytelen, a.myHashes (a.place i * a.hashbytelen + k)
      = a.paHashes (j * a.hashbytelen + k) := fun k hk => (congrFun h ⟨k, hk⟩).symm
  refine ⟨congrArg gInt64Hash (loadLE_congr fun k hk => hbyte k (by omega)), fun _ => ?_⟩
  refine loadLE_congr fun k hk => ?_
  rw [Nat.add_assoc, Nat.add_assoc]
  exact hbyte (8 + k) (by omega)

end Compare

/-! ## The stored keys -/

section Keys

variable {a : FindArgs}

/-- What the loop over the leader's masks leaves in `tmpkeys`. -/
structure KeysStored (a : FindArgs) (tmpkeys : Buf Byte) : Prop where
  index : ∀ i < a.myNeles, a.hashbytelen ≤ 8 → loadLE tmpkeys (4 * (i * a.keysStored)) 4 = i
  wordAfter : ∀ i < a.myNeles, 8 < a.hashbytelen →
    loadLE tmpkeys (4 * (i * a.keysStored)) 4 = a.wordAfter a.myHashes (a.place i)
  indexAfter : ∀ i < a.myNeles, 8 < a.hashbytelen →
    loadLE tmpkeys (4 * (i * a.keysStored) + 4) 4 = i

theorem FindArgs.keysStored_long (hw : 8 < a.hashbytelen) : a.keysStored = 2 := if_pos hw

theorem FindArgs.keysStored_short (hw : a.hashbytelen ≤ 8) : a.keysStored = 1 :=
  if_neg (Nat.not_lt.mpr hw)

/-- Indices alone are stored for short masks. -/
theorem keysStored_of_short (hn : a.myNeles ≤ 2 ^ 32) (hw : a.hashbytelen ≤ 8) :
    KeysStored a
      (loop (fun i tmpkeys => copy tmpkeys (4 * i) (ofNatLE i) 0 4) a.myNeles fun _ => 0) := by
  refine ⟨fun i hi _ => ?_, fun _ _ h => absurd hw (Nat.not_le.mpr h),
    fun _ _ h => absurd hw (Nat.not_le.mpr h)⟩
  rw [FindArgs.keysStored_short hw, Nat.mul_one]
  refine loadLE_ofNatLE (by omega) ?_
  refine loop_settles (Q := fun i (tmpkeys : Buf Byte) => ∀ k < 4,
    tmpkeys (4 * i + k) = ofNatLE i k) a.myNeles ?_ ?_ hi
  · intro i tmpkeys _ k hk
    rw [copy_apply, if_pos (by omega), Nat.zero_add, Nat.add_sub_cancel_left]
  · intro i n tmpkeys hlt _ hkeys k hk
    rw [copy_apply, if_neg (by omega), hkeys k hk]

/-- The bytes of `tmpkeys` after `n` long masks: each has the remainder of its mask, as far as there
is room before the index, and then the index. -/
structure LongKeys (a : FindArgs) (n : Nat) (tmpkeys : Buf Byte) : Prop where
  remainder : ∀ i < n, ∀ k < min (a.hashbytelen - 8) 4,
    tmpkeys (8 * i + k) = a.myHashes (a.place i * a.hashbytelen + 8 + k)
  padding : ∀ i < n, ∀ k, a.hashbytelen - 8 ≤ k → k < 4 → tmpkeys (8 * i + k) = 0
  index : ∀ i < n, ∀ k < 4, tmpkeys (8 * i + 4 + k) = ofNatLE i k
  rest : ∀ k, 8 * n ≤ k → tmpkeys k = 0

theorem LongKeys.step {n : Nat} {tmpkeys : Buf Byte} (hw : a.hashbytelen ≤ 16)
    (h : LongKeys a n tmpkeys) :
    LongKeys a (n + 1) (copy (copy tmpkeys (8 * n) a.myHashes
      (a.place n * a.hashbytelen + 8) (a.hashbytelen - 8)) (8 * n + 4) (ofNatLE n) 0 4) := by
  obtain ⟨hremainder, hpadding, hindex, hrest⟩ := h
  refine ⟨fun i hi k hk => ?_, fun i hi k hle hk => ?_, fun i hi k hk => ?_, fun k hk => ?_⟩
  · rw [copy_apply, if_neg (by omega), copy_apply]
    rcases Nat.lt_or_eq_of_le (Nat.le_of_lt_succ hi) with hlt | rfl
    · rw [if_neg (by omega)]
      exact hremainder i hlt k hk
    · rw [if_pos (by omega), Nat.add_sub_cancel_left]
  · rw [copy_apply, if_neg (by omega), copy_apply]
    rcases Nat.lt_or_eq_of_le (Nat.le_of_lt_succ hi) with hlt | rfl
    · rw [if_neg (by omega)]
      exact hpadding i hlt k hle hk
    · rw [if_neg (by omega)]
      exact hrest _ (Nat.le_add_right _ k)
  · rw [copy_apply]
    rcases Nat.lt_or_eq_of_le (Nat.le_of_lt_succ hi) with hlt | rfl
    · rw [if_neg (by omega), copy_apply, if_neg (by omega)]
      exact hindex i hlt k hk
    · rw [if_pos (by omega), Nat.zero_add, Nat.add_sub_cancel_left]
  · rw [copy_apply, if_neg (by omega), copy_apply, if_neg (by omega)]
    exact hrest k (by omega)

theorem LongKeys.keysStored {tmpkeys : Buf Byte} (hn : a.myNeles ≤ 2 ^ 32)
    (hw : 8 < a.hashbytelen) (h : LongKeys a a.myNeles tmpkeys) : KeysStored a tmpkeys := by
  have hpos : ∀ i, 4 * (i * a.keysStored) = 8 * i := by
    intro i
    rw [FindArgs.keysStored_long hw]
    omega
  refine ⟨fun _ _ hle => absurd hw (Nat.not_lt.mpr hle), fun i hi _ => ?_, fun i hi _ => ?_⟩
  · rw [hpos]
    exact loadLE_of_zero (Nat.min_le_right _ _) (h.remainder i hi)
      fun k hk hlt => h.padding i hi k (by omega) hlt
  · rw [hpos]
    exact loadLE_ofNatLE (by omega) (h.index i hi)

/-- Placed masks of up to 16 bytes are stored. -/
theorem storeKeys_spec (hn : a.myNeles ≤ 2 ^ 32) (hinfo : a.InfoInRange)
    (hplaced : ∀ i < a.myNeles, 0 < a.hashbytelen → a.Placed i)
    (hw : ∀ i < a.myNeles, a.hashbytelen ≤ 16) :
    ∃ tmpkeys, storeKeys a = some tmpkeys ∧ KeysStored a tmpkeys := by
  unfold storeKeys
  by_cases hlong : 8 < a.hashbytelen
  · rw [if_pos hlong]
    obtain ⟨tmpkeys, hrun, hkeys⟩ := loopM_total (P := LongKeys a) (f := storeKey a)
      (s := fun _ => 0) a.myNeles
      ⟨fun i h => absurd h (Nat.not_lt_zero i), fun i h => absurd h (Nat.not_lt_zero i),
        fun i h => absurd h (Nat.not_lt_zero i), fun _ _ => rfl⟩
      fun i t hi ht => by
        have hw := hw i hi
        refine ⟨_, if_pos ⟨(FindArgs.inside_iff hinfo hi (by omega)).mpr (hplaced i hi), by omega⟩,
          ?_⟩
        rw [FindArgs.offset_toNat]
        exact ht.step hw
    exact ⟨tmpkeys, hrun, hkeys.keysStored hn hlong⟩
  · rw [if_neg hlong]
    exact ⟨_, rfl, keysStored_of_short hn (Nat.le_of_not_lt hlong)⟩

/-- Of longer masks the last one would be stored behind the end. -/
theorem le_of_storeKeys {tmpkeys : Buf Byte} (h : storeKeys a = some tmpkeys) :
    ∀ i < a.myNeles, a.hashbytelen ≤ 16 := by
  intro i hi
  unfold storeKeys at h
  split at h
  · obtain ⟨t, t', hlast⟩ := loopM_round h (Nat.sub_lt (Nat.zero_lt_of_lt hi) Nat.one_pos)
    unfold storeKey at hlast
    split at hlast
    · next hroom =>
        have := hroom.2
        omega
    · cases hlast
  · omega

end Keys

/-! ## The table -/

section Table

variable {gInt64Hash : Nat → Nat} {a : FindArgs}

/-- The last of the first `n` elements that is stored with the hash `b`. -/
def lastWithHash (storedHash : Nat → Nat) : Nat → Nat → Option Nat
  | 0, _ => none
  | n + 1, b => if storedHash n = b then some n else lastWithHash storedHash n b

theorem lastWithHash_eq_some {storedHash : Nat → Nat} {n b i : Nat} :
    lastWithHash storedHash n b = some i ↔
      i < n ∧ storedHash i = b ∧ ∀ i' < n, i < i' → storedHash i' ≠ storedHash i := by
  induction n with
  | zero =>
      refine ⟨fun h => absurd h (Option.some_ne_none i).symm,
        fun h => absurd h.1 (Nat.not_lt_zero i)⟩
  | succ n ih =>
      rw [lastWithHash]
      by_cases hlast : storedHash n = b
      · rw [if_pos hlast, Option.some_inj]
        refine ⟨fun h => ?_, fun ⟨hi, hb, hno⟩ => ?_⟩
        · subst h
          exact ⟨Nat.lt_succ_self n, hlast, fun i' hi' hlt => by omega⟩
        · by_contra hne
          exact hno n (Nat.lt_succ_self n) (by omega) (hlast.trans hb.symm)
      · rw [if_neg hlast, ih]
        refine ⟨fun ⟨hi, hb, hno⟩ => ⟨Nat.lt_succ_of_lt hi, hb, fun i' hi' hlt => ?_⟩,
          fun ⟨hi, hb, hno⟩ => ⟨?_, hb, fun i' hi' => hno i' (Nat.lt_succ_of_lt hi')⟩⟩
        · rcases Nat.lt_or_eq_of_le (Nat.le_of_lt_succ hi') with h | rfl
          · exact hno i' h hlt
          · rw [hb]
            exact hlast
        · refine Nat.lt_of_le_of_ne (Nat.le_of_lt_succ hi) fun heq => ?_
          subst heq
          exact hlast hb

/-- Behind the bytes that are copied into it `tmpbuf` is zero. -/
def FindArgs.Cleared (a : FindArgs) (tmpbuf : Buf Byte) : Prop :=
  ∀ k, a.hashbytelen ≤ k → k < 8 → tmpbuf k = 0

/-- Once a mask was copied into it, `tmpbuf` is its prefix. -/
theorem FindArgs.Cleared.load {tmpbuf : Buf Byte} (h : a.Cleared tmpbuf) (masks : Buf Byte)
    (k : Nat) :
    a.Cleared (copy tmpbuf 0 masks (k * a.hashbytelen) a.tmpHashbytelen) ∧
      loadLE (copy tmpbuf 0 masks (k * a.hashbytelen) a.tmpHashbytelen) 0 8
        = a.prefixOf masks k := by
  have hcleared : a.Cleared (copy tmpbuf 0 masks (k * a.hashbytelen) a.tmpHashbytelen) := by
    intro i hle hlt
    rw [FindArgs.tmpHashbytelen_eq, copy_apply, if_neg (by omega)]
    exact h i hle hlt
  refine ⟨hcleared, loadLE_of_zero (Nat.min_le_right _ _) (fun i hi => ?_) fun i hle hlt => ?_⟩
  · rw [FindArgs.tmpHashbytelen_eq, copy_apply, if_pos (by omega), Nat.zero_add, Nat.sub_zero]
  · rw [Nat.zero_add]
    exact hcleared i (by omega) hlt

/-- The word that the code compares with the one in `tmpkeys`. -/
theorem FindArgs.load_wordAfter {masks : Buf Byte} (k : Nat) :
    loadLE (copy (fun _ => 0) 0 masks (k * a.hashbytelen + 8) (a.hashbytelen - 8)) 0 8 % 2 ^ 32
      = a.wordAfter masks k := by
  refine (loadLE_mod _ 0 (by decide : 4 ≤ 8)).trans ?_
  refine loadLE_of_zero (Nat.min_le_right _ _) (fun i hi => ?_) fun i hle hlt => ?_
  · rw [copy_apply, if_pos (by omega), Nat.zero_add, Nat.sub_zero]
  · rw [copy_apply, if_neg (by omega)]

/-- The table after `n` insertions. -/
structure MasksInserted (gInt64Hash : Nat → Nat) (a : FindArgs) (n : Nat) (s : KeyTable) :
    Prop where
  aliased : PointerTable.Aliased s.map ()
  lookup : ∀ now : Unit → Nat, PointerTable.lookup gInt64Hash now s.map ()
    = (lastWithHash (a.storedHash gInt64Hash) n (gInt64Hash (now ()))).map (· * a.keysStored)
  cleared : a.Cleared s.tmpbuf

theorem MasksInserted.step {n : Nat} {s : KeyTable} (h : MasksInserted gInt64Hash a n s)
    (hinside : a.Inside n 0 a.tmpHashbytelen) :
    ∃ s', insertKey gInt64Hash a n s = some s' ∧ MasksInserted gInt64Hash a (n + 1) s' := by
  have hzero : a.Cleared fun _ => 0 := fun _ _ _ => rfl
  obtain ⟨hcleared, hload⟩ := hzero.load a.myHashes (a.place n)
  refine ⟨_, if_pos hinside, ?_⟩
  rw [FindArgs.offset_toNat]
  refine ⟨h.aliased.insert _, fun now => ?_, hcleared⟩
  refine (PointerTable.lookup_insert_of_alias h.aliased _).trans ?_
  rw [lastWithHash, hload, h.lookup now]
  change (if a.storedHash gInt64Hash n = _ then _ else _) = _
  split
  · rfl
  · rfl

theorem insertKeys_spec (gInt64Hash : Nat → Nat) (hinfo : a.InfoInRange)
    (hplaced : ∀ i < a.myNeles, 0 < a.hashbytelen → a.Placed i) :
    ∃ s, loopM (insertKey gInt64Hash a) a.myNeles ⟨fun _ => 0, []⟩ = some s ∧
      MasksInserted gInt64Hash a a.myNeles s :=
  loopM_total a.myNeles
    ⟨fun _ h => absurd h List.not_mem_nil, fun _ => rfl, fun _ _ _ => rfl⟩
    fun i s hi hs => hs.step ((FindArgs.inside_iff hinfo hi
      (by rw [FindArgs.tmpHashbytelen_eq]; omega)).mpr (hplaced i hi))

/-- Elements without a place cannot be inserted. -/
theorem placed_of_insertKeys (hinfo : a.InfoInRange) {s t : KeyTable}
    (h : loopM (insertKey gInt64Hash a) a.myNeles s = some t) :
    ∀ i < a.myNeles, 0 < a.hashbytelen → a.Placed i := by
  intro i hi
  obtain ⟨u, v, hstep⟩ := loopM_round h hi
  unfold insertKey at hstep
  split at hstep
  · next hinside =>
      exact (FindArgs.inside_iff hinfo hi (by rw [FindArgs.tmpHashbytelen_eq]; omega)).mp hinside
  · cases hstep

end Table

/-! ## The queries -/

section Query

variable {gInt64Hash : Nat → Nat} {a : FindArgs}

/-- The element that is reported for the follower's mask `j`. -/
def hit (gInt64Hash : Nat → Nat) (a : FindArgs) (j : Nat) : Option Nat :=
  (lastWithHash (a.storedHash gInt64Hash) a.myNeles
    (gInt64Hash (a.prefixOf a.paHashes j))).filter fun i =>
      8 < a.hashbytelen → a.wordAfter a.myHashes (a.place i) = a.wordAfter a.paHashes j

theorem hit_eq_some {i j : Nat} : hit gInt64Hash a j = some i ↔
    i < a.myNeles ∧ a.LastWithHash gInt64Hash i ∧ a.Agrees gInt64Hash i j := by
  rw [hit, Option.filter_eq_some_iff, lastWithHash_eq_some, decide_eq_true_iff]
  exact ⟨fun ⟨⟨hi, hb, hno⟩, hword⟩ => ⟨hi, hno, hb, hword⟩,
    fun ⟨hi, hno, hb, hword⟩ => ⟨⟨hi, hb, hno⟩, hword⟩⟩

/-- A query reports its hit, if it has one. -/
theorem queryKey_eq (hw : ∀ i < a.myNeles, a.hashbytelen ≤ 16) {tmpkeys : Buf Byte}
    (hkeys : KeysStored a tmpkeys) {table : KeyTable}
    (htable : MasksInserted gInt64Hash a a.myNeles table) {s : QueryState} (hs : a.Cleared s.tmpbuf)
    (j : Nat) :
    ∃ tmpbuf, a.Cleared tmpbuf ∧ queryKey gInt64Hash a tmpkeys table.map j s
      = match hit gInt64Hash a j with
        | none => some { s with tmpbuf := tmpbuf }
        | some i => addMatch a i { s with tmpbuf := tmpbuf } := by
  obtain ⟨hcleared, hload⟩ := hs.load a.paHashes j
  rw [queryKey, htable.lookup, hload, hit]
  cases hlast : lastWithHash (a.storedHash gInt64Hash) a.myNeles
      (gInt64Hash (a.prefixOf a.paHashes j)) with
  | none => exact ⟨_, hcleared, rfl⟩
  | some i =>
      obtain ⟨hi, -, -⟩ := lastWithHash_eq_some.mp hlast
      have hw := hw i hi
      rw [Option.map_some, Option.filter_some]
      dsimp only
      by_cases hlong : 8 < a.hashbytelen
      · have hstored : 1 < a.keysStored := by
          rw [FindArgs.keysStored_long hlong]
          decide
        rw [if_pos hstored, if_pos (by omega), hkeys.wordAfter i hi hlong,
          hkeys.indexAfter i hi hlong, FindArgs.load_wordAfter]
        refine ⟨copy (fun _ => 0) 0 a.paHashes (j * a.hashbytelen + 8) (a.hashbytelen - 8),
          fun k hle hlt => absurd hle (by omega), ?_⟩
        by_cases heq : a.wordAfter a.myHashes (a.place i) = a.wordAfter a.paHashes j
        · rw [if_pos heq.symm, if_pos (decide_eq_true fun _ => heq)]
        · have hno : ¬ (8 < a.hashbytelen →
              a.wordAfter a.myHashes (a.place i) = a.wordAfter a.paHashes j) :=
            fun h => heq (h hlong)
          rw [if_neg (Ne.symm heq), if_neg (mt decide_eq_true_iff.mp hno)]
      · have hshort := Nat.le_of_not_lt hlong
        rw [if_neg (by rw [FindArgs.keysStored_short hshort]; decide), hkeys.index i hi hshort,
          if_pos (decide_eq_true fun h => absurd h hlong)]
        exact ⟨_, hcleared, rfl⟩

/-- The follower's masks that were looked up. -/
structure Queried (gInt64Hash : Nat → Nat) (a : FindArgs) (n : Nat) (s : QueryState) : Prop where
  hits : (List.range s.intersectCtr).map s.matched = (List.range n).filterMap (hit gInt64Hash a)
  room : s.intersectCtr ≤ a.myNeles
  cleared : a.Cleared s.tmpbuf

theorem Queried.length {n : Nat} {s : QueryState} (h : Queried gInt64Hash a n s) :
    s.intersectCtr = ((List.range n).filterMap (hit gInt64Hash a)).length := by
  rw [← h.hits, List.length_map, List.length_range]

theorem filterMap_range_succ {β : Type*} (f : Nat → Option β) (n : Nat) :
    (List.range (n + 1)).filterMap f = (List.range n).filterMap f ++ (f n).toList := by
  rw [List.range_succ, List.filterMap_append]
  cases h : f n with
  | none => rw [List.filterMap_cons_none h, List.filterMap_nil, Option.toList_none]
  | some b => rw [List.filterMap_cons_some h, List.filterMap_nil, Option.toList_some]

/-- A match is appended to those before. -/
theorem Queried.addMatch {n i : Nat} {s s' : QueryState} (hhit : hit gInt64Hash a n = some i)
    (h : Queried gInt64Hash a n s) (hstep : MultiPartyPSI.addMatch a i s = some s') :
    Queried gInt64Hash a (n + 1) s' := by
  unfold MultiPartyPSI.addMatch at hstep
  split at hstep
  · next hlt =>
      cases hstep
      refine ⟨?_, hlt, h.cleared⟩
      rw [filterMap_range_succ, hhit, ← h.hits, List.range_succ, List.map_append]
      dsimp only
      rw [List.map_singleton, write_same]
      congr 1
      refine List.map_congr_left fun k hk => write_ne _ _ ?_
      exact Nat.ne_of_lt (List.mem_range.mp hk)
  · cases hstep

section Run

variable (hw : ∀ i < a.myNeles, a.hashbytelen ≤ 16) {tmpkeys : Buf Byte}
  (hkeys : KeysStored a tmpkeys) {table : KeyTable}
  (htable : MasksInserted gInt64Hash a a.myNeles table)
include hw hkeys htable

/-- One query: it succeeds while there is room for the hits. -/
theorem Queried.step {n : Nat} {s : QueryState} (h : Queried gInt64Hash a n s) :
    (((List.range (n + 1)).filterMap (hit gInt64Hash a)).length ≤ a.myNeles →
        ∃ s', queryKey gInt64Hash a tmpkeys table.map n s = some s') ∧
      ∀ s', queryKey gInt64Hash a tmpkeys table.map n s = some s' →
        Queried gInt64Hash a (n + 1) s' := by
  obtain ⟨tmpbuf, hcleared, heq⟩ := queryKey_eq hw hkeys htable h.cleared n
  rw [heq]
  cases hhit : hit gInt64Hash a n with
  | none =>
      refine ⟨fun _ => ⟨_, rfl⟩, fun s' hs' => ?_⟩
      cases hs'
      refine ⟨?_, h.room, hcleared⟩
      rw [filterMap_range_succ, hhit, Option.toList_none, List.append_nil]
      exact h.hits
  | some i =>
      have hcopied : Queried gInt64Hash a n { s with tmpbuf := tmpbuf } :=
        ⟨h.hits, h.room, hcleared⟩
      refine ⟨fun hlen => ⟨_, if_pos ?_⟩, fun s' => hcopied.addMatch hhit⟩
      rw [filterMap_range_succ, hhit, Option.toList_some, List.length_append, ← h.length,
        List.length_singleton] at hlen
      exact hlen

theorem queryKeys_spec
    (hlen : ((List.range a.paNeles).filterMap (hit gInt64Hash a)).length ≤ a.myNeles) :
    ∃ s, loopM (queryKey gInt64Hash a tmpkeys table.map) a.paNeles
        ⟨table.tmpbuf, fun _ => 0, 0⟩ = some s ∧ Queried gInt64Hash a a.paNeles s := by
  refine loopM_total a.paNeles ⟨rfl, Nat.zero_le _, htable.cleared⟩ fun n s hn hs => ?_
  obtain ⟨hsome, hnext⟩ := hs.step hw hkeys htable
  have hle := ((List.take_prefix (n + 1) (List.range a.paNeles)).filterMap
    (hit gInt64Hash a)).length_le
  rw [List.take_range, Nat.min_eq_left hn] at hle
  obtain ⟨s', hs'⟩ := hsome (hle.trans hlen)
  exact ⟨s', hs', hnext s' hs'⟩

theorem queried_of_queryKeys {s : QueryState}
    (h : loopM (queryKey gInt64Hash a tmpkeys table.map) a.paNeles
      ⟨table.tmpbuf, fun _ => 0, 0⟩ = some s) : Queried gInt64Hash a a.paNeles s :=
  loopM_induct a.paNeles h ⟨rfl, Nat.zero_le _, htable.cleared⟩
    fun _ _ t' _ ht hstep => (ht.step hw hkeys htable).2 t' hstep

end Run

/-- **The result is the list of hits**, when every mask can be read and stored and there is room for
the hits; otherwise the code leaves its arrays. -/
theorem otpsiFindIntersection_eq_some (hn : a.myNeles ≤ 2 ^ 32) (hinfo : a.InfoInRange)
    {result : List Nat} : otpsiFindIntersection gInt64Hash a = some result ↔
      (∀ i < a.myNeles, (0 < a.hashbytelen → a.Placed i) ∧ a.hashbytelen ≤ 16) ∧
        result = (List.range a.paNeles).filterMap (hit gInt64Hash a) ∧
        result.length ≤ a.myNeles := by
  unfold otpsiFindIntersection
  refine ⟨fun h => ?_, fun ⟨hall, hresult, hlen⟩ => ?_⟩
  · obtain ⟨tmpkeys, hstored, h⟩ := Option.bind_eq_some_iff.mp h
    obtain ⟨table, htable, h⟩ := Option.bind_eq_some_iff.mp h
    obtain ⟨s, hs, h⟩ := Option.bind_eq_some_iff.mp h
    cases h
    have hw := le_of_storeKeys hstored
    have hplaced := placed_of_insertKeys hinfo htable
    obtain ⟨tmpkeys', hstored', hkeys⟩ := storeKeys_spec hn hinfo hplaced hw
    cases hstored.symm.trans hstored'
    obtain ⟨table', htable', hinserted⟩ := insertKeys_spec gInt64Hash hinfo hplaced
    cases htable.symm.trans htable'
    have hqueried := queried_of_queryKeys hw hkeys hinserted hs
    refine ⟨fun i hi => ⟨hplaced i hi, hw i hi⟩, hqueried.hits, ?_⟩
    rw [List.length_map, List.length_range]
    exact hqueried.room
  · obtain ⟨tmpkeys, hstored, hkeys⟩ :=
      storeKeys_spec hn hinfo (fun i hi => (hall i hi).1) fun i hi => (hall i hi).2
    obtain ⟨table, htable, hinserted⟩ :=
      insertKeys_spec gInt64Hash hinfo fun i hi => (hall i hi).1
    obtain ⟨s, hs, hqueried⟩ := queryKeys_spec (fun i hi => (hall i hi).2) hkeys hinserted
      (hresult ▸ hlen)
    rw [hstored, Option.bind_eq_bind, Option.bind_some, htable, Option.bind_eq_bind,
      Option.bind_some, hs, Option.bind_eq_bind, Option.bind_some, hresult, ← hqueried.hits]
    rfl

end Query

/-! ## When the intersection is found -/

section Intersection

variable {gInt64Hash : Nat → Nat} {a : FindArgs}

theorem nodup_filterMap_range {β : Type*} {f : Nat → Option β} {n : Nat} :
    ((List.range n).filterMap f).Nodup ↔
      ∀ j j' b, j < j' → j' < n → f j = some b → f j' ≠ some b := by
  rw [List.Nodup, List.pairwise_filterMap, List.pairwise_iff_getElem]
  simp only [List.length_range, List.getElem_range]
  refine ⟨fun h j j' b hlt hj' hb hb' => ?_, fun h j j' _ hj' hlt b hb b' hb' heq => ?_⟩
  · exact h j j' (hlt.trans hj') hj' hlt b hb b hb' rfl
  · exact h j j' b hlt hj' hb (heq ▸ hb')

/-- An element is reported when it is the last with its hash and a mask of the follower agrees with
it. -/
theorem mem_hits {i : Nat} : i ∈ (List.range a.paNeles).filterMap (hit gInt64Hash a) ↔
    i < a.myNeles ∧ a.LastWithHash gInt64Hash i ∧ ∃ j < a.paNeles, a.Agrees gInt64Hash i j := by
  rw [List.mem_filterMap]
  refine ⟨fun ⟨j, hj, hhit⟩ => ?_, fun ⟨hi, hlast, j, hj, hagrees⟩ => ?_⟩
  · obtain ⟨hi, hlast, hagrees⟩ := hit_eq_some.mp hhit
    exact ⟨hi, hlast, j, List.mem_range.mp hj, hagrees⟩
  · exact ⟨j, List.mem_range.mpr hj, hit_eq_some.mpr ⟨hi, hlast, hagrees⟩⟩

/-- What the comparison by hash needs of element `i`. If its mask is among the follower's, no later
element may have its hash, and no second mask of the follower may agree with it. If it is not, no
mask of the follower may agree with it, unless a later element hides it. -/
structure FindArgs.ToldApart (gInt64Hash : Nat → Nat) (a : FindArgs) (i : Nat) : Prop where
  placed : 0 < a.hashbytelen → a.Placed i
  length : a.hashbytelen ≤ 16
  last : a.Placed i → a.Occurs i → a.LastWithHash gInt64Hash i
  once : a.Placed i → a.Occurs i → ∀ j < a.paNeles, ∀ j' < a.paNeles,
    a.Agrees gInt64Hash i j → a.Agrees gInt64Hash i j' → j = j'
  absent : ¬ (a.Placed i ∧ a.Occurs i) → a.LastWithHash gInt64Hash i →
    ∀ j < a.paNeles, ¬ a.Agrees gInt64Hash i j

theorem FindArgs.ToldApart.of_finds (hn : a.myNeles ≤ 2 ^ 32) (hinfo : a.InfoInRange)
    (h : FindsIntersection gInt64Hash a) {i : Nat} (hi : i < a.myNeles) :
    a.ToldApart gInt64Hash i := by
  obtain ⟨result, hrun, hnodup, hmem⟩ := h
  obtain ⟨hall, hresult, -⟩ := (otpsiFindIntersection_eq_some hn hinfo).mp hrun
  subst hresult
  obtain ⟨hplaced, hlength⟩ := hall i hi
  have hlast : a.Placed i → a.Occurs i → a.LastWithHash gInt64Hash i := fun hp ho =>
    (mem_hits.mp ((hmem i).mpr ⟨hi, hp, ho⟩)).2.1
  refine ⟨hplaced, hlength, hlast, fun hp ho j hj j' hj' hag hag' => ?_,
    fun hno hl j hj hag => hno ((hmem i).mp (mem_hits.mpr ⟨hi, hl, j, hj, hag⟩)).2⟩
  have hhit := hit_eq_some.mpr ⟨hi, hlast hp ho, hag⟩
  have hhit' := hit_eq_some.mpr ⟨hi, hlast hp ho, hag'⟩
  rcases Nat.lt_trichotomy j j' with hlt | heq | hgt
  · exact absurd hhit' (nodup_filterMap_range.mp hnodup j j' i hlt hj' hhit)
  · exact heq
  · exact absurd hhit (nodup_filterMap_range.mp hnodup j' j i hgt hj hhit')

theorem findsIntersection_of_toldApart (hn : a.myNeles ≤ 2 ^ 32) (hinfo : a.InfoInRange)
    (h : ∀ i < a.myNeles, a.ToldApart gInt64Hash i) : FindsIntersection gInt64Hash a := by
  have hin : ∀ i < a.myNeles, a.LastWithHash gInt64Hash i → ∀ j < a.paNeles,
      a.Agrees gInt64Hash i j → a.Placed i ∧ a.Occurs i := by
    intro i hi hlast j hj hag
    by_contra hno
    exact (h i hi).absent hno hlast j hj hag
  have hnodup : ((List.range a.paNeles).filterMap (hit gInt64Hash a)).Nodup := by
    refine nodup_filterMap_range.mpr fun j j' i hlt hj' hhit hhit' => ?_
    obtain ⟨hi, hlast, hag⟩ := hit_eq_some.mp hhit
    obtain ⟨-, -, hag'⟩ := hit_eq_some.mp hhit'
    obtain ⟨hp, ho⟩ := hin i hi hlast j' hj' hag'
    exact absurd ((h i hi).once hp ho j (hlt.trans hj') j' hj' hag hag') (Nat.ne_of_lt hlt)
  have hlen : ((List.range a.paNeles).filterMap (hit gInt64Hash a)).length ≤ a.myNeles := by
    have hsub := hnodup.subperm fun i hi => List.mem_range.mpr (mem_hits.mp hi).1
    rw [← List.length_range (n := a.myNeles)]
    exact hsub.length_le
  refine ⟨_, (otpsiFindIntersection_eq_some hn hinfo).mpr
    ⟨fun i hi => ⟨(h i hi).placed, (h i hi).length⟩, rfl, hlen⟩, hnodup, fun i => ?_⟩
  rw [mem_hits]
  refine ⟨fun ⟨hi, hlast, j, hj, hag⟩ => ⟨hi, hin i hi hlast j hj hag⟩, fun ⟨hi, hp, ho⟩ => ?_⟩
  obtain ⟨j, hj, hrow⟩ := ho
  exact ⟨hi, (h i hi).last hp ⟨j, hj, hrow⟩, j, hj, FindArgs.agrees_of_row hrow⟩

/-- **The intersection is found exactly when the 32-bit hashes tell the masks apart**: every element
is placed, the masks have at most 16 bytes, and for every element the comparison by hash does not
differ from the comparison of masks. -/
theorem findsIntersection_iff (hn : a.myNeles ≤ 2 ^ 32) (hinfo : a.InfoInRange) :
    FindsIntersection gInt64Hash a ↔ ∀ i < a.myNeles, a.ToldApart gInt64Hash i :=
  ⟨fun h _ hi => FindArgs.ToldApart.of_finds hn hinfo h hi,
    findsIntersection_of_toldApart hn hinfo⟩

/-- Two masks of five bytes with different hashes, none of them one that `GHashTable` reserves. The
follower has the first of them twice, as it has when two hash functions put one element into the
same bin. -/
def repeatedMask : FindArgs where
  myHashes := fun i => XorVec.ofBits ([3, 0, 0, 0, 0, 4, 0, 0, 0, 0].getD i 0)
  myNeles := 2
  paHashes := fun i => XorVec.ofBits ([3, 0, 0, 0, 0, 5, 0, 0, 0, 0, 3, 0, 0, 0, 0, 6, 0, 0, 0, 0,
    7, 0, 0, 0, 0, 8, 0, 0, 0, 0].getD i 0)
  paNeles := 6
  hashbytelen := 5
  hashInfo := fun i => ⟨i, i, 0⟩

theorem infoInRange_repeatedMask : repeatedMask.InfoInRange := by
  intro i hi
  exact Or.inr ⟨i, hi, rfl⟩

theorem findsIntersection_iff_repeatedMask :
    FindsIntersection (fun key => key % 2 ^ 32) repeatedMask ↔
      ∀ i < 2, repeatedMask.ToldApart (fun key => key % 2 ^ 32) i :=
  findsIntersection_iff (by decide) infoInRange_repeatedMask

/-- The leader's masks differ in the fifth byte only, and the follower has the first of them. -/
def collidingMasks : FindArgs where
  myHashes := fun i => XorVec.ofBits ([3, 0, 0, 0, 0, 3, 0, 0, 0, 1].getD i 0)
  myNeles := 2
  paHashes := fun i => XorVec.ofBits ([3, 0, 0, 0, 0, 5, 0, 0, 0, 0, 6, 0, 0, 0, 0, 7, 0, 0, 0, 0,
    8, 0, 0, 0, 0, 9, 0, 0, 0, 0].getD i 0)
  paNeles := 6
  hashbytelen := 5
  hashInfo := fun i => ⟨i, i, 0⟩

/-- Element 0 is reported twice where its mask is repeated, element 1 is reported for the mask of
element 0 where their hashes are equal, and an element without a place makes the code read outside
of the leader's masks. -/
theorem not_findsIntersection :
    (otpsiFindIntersection (fun key => key % 2 ^ 32) repeatedMask = some [0, 0] ∧
        twoPartyLeaderRun (fun key => key % 2 ^ 32) repeatedMask.myHashes repeatedMask.paHashes 2 5
          repeatedMask.hashInfo = some 2 ∧
        ¬ FindsIntersection (fun key => key % 2 ^ 32) repeatedMask) ∧
      (otpsiFindIntersection (fun key => key % 2 ^ 32) collidingMasks = some [1] ∧
        ¬ FindsIntersection (fun key => key % 2 ^ 32) collidingMasks) ∧
      otpsiFindIntersection (fun key => key % 2 ^ 32)
          { repeatedMask with hashInfo := fun i => ⟨-1, if i = 0 then 1 else -1, 0⟩ } = none ∧
        ¬ FindsIntersection (fun key => key % 2 ^ 32)
          { repeatedMask with hashInfo := fun i => ⟨-1, if i = 0 then 1 else -1, 0⟩ } := by
  have hrepeated : otpsiFindIntersection (fun key => key % 2 ^ 32) repeatedMask = some [0, 0] := by
    decide +kernel
  have hcolliding : otpsiFindIntersection (fun key => key % 2 ^ 32) collidingMasks = some [1] := by
    decide +kernel
  have hunplaced : otpsiFindIntersection (fun key => key % 2 ^ 32)
      { repeatedMask with hashInfo := fun i => ⟨-1, if i = 0 then 1 else -1, 0⟩ } = none := by
    decide +kernel
  refine ⟨⟨hrepeated, by decide +kernel, fun h => ?_⟩, ⟨hcolliding, fun h => ?_⟩, hunplaced,
    fun h => ?_⟩
  · obtain ⟨result, hrun, hnodup, -⟩ := h
    cases hrepeated.symm.trans hrun
    exact absurd hnodup (by decide)
  · obtain ⟨result, hrun, -, hmem⟩ := h
    cases hcolliding.symm.trans hrun
    obtain ⟨-, -, j, hj, hrow⟩ := (hmem 1).mp (List.mem_singleton.mpr rfl)
    revert j
    decide +kernel
  · obtain ⟨result, hrun, -⟩ := h
    cases hunplaced.symm.trans hrun

end Intersection

end MultiPartyPSI
