import MultiPartyPSI.Hashing.Cuckoo
import MultiPartyPSI.Hashing.Locality
import MultiPartyPSI.Hashing.SimpleHashing

/-!
# Two parties place a common element alike

The leader hashes its elements into fresh entries, each follower thread hashes its
elements one after the other into the same two buffers. For a common element the two
agree whatever lies next to it in either array exactly when `hashElement` looks at
nothing else.
-/

namespace MultiPartyPSI

open Lib Buf HashingState

/-- The pointer to element `i` of an array. -/
def elementAt (hs : HashingState) (elements : Buf Byte) (i : Nat) : Buf Byte :=
  fun j => elements (hs.inbytelen * i + j)

/-- What `gen_cuckoo_entry` hashes: an element of the leader's array, into an entry whose value
was just allocated by `calloc`. -/
def leaderHash (hs : HashingState) (elements : Buf Byte) (fresh : Buf Nat) (i : Nat) :
    Hashed (Buf Byte) :=
  hs.hashElement (elementAt hs elements i) fresh (fun _ => 0)

/-- What `gen_entries` hashes in its round `k`: an element of the follower's array, into the
buffers of the round before. -/
def followerHash (hs : HashingState) (elements : Buf Byte) (fresh : Buf Nat) (startpos : Nat) :
    Nat → Hashed (Buf Byte)
  | 0 => hs.hashElement (elementAt hs elements startpos) fresh (fun _ => 0)
  | k + 1 =>
      hs.hashElement (elementAt hs elements (startpos + (k + 1)))
        (followerHash hs elements fresh startpos k).address
        (followerHash hs elements fresh startpos k).val

/-- An element of the leader's array and one of a follower's that have the same bytes get
the same addresses and the same stored bytes. -/
def PlacedAlike (n N : Nat) : Prop :=
  ∀ (hf : Nat → Nat → Nat → BitVec 32) (hs : HashingState), initHashingState n N hf = some hs →
    ∀ (elements elements' : Buf Byte) (fresh fresh' : Buf Nat) (i startpos k : Nat),
      (∀ j < hs.inbytelen,
        elementAt hs elements i j = elementAt hs elements' (startpos + k) j) →
      (∀ j < numHashFunctions, (leaderHash hs elements fresh i).address j
        = (followerHash hs elements' fresh' startpos k).address j) ∧
      ∀ j < hs.outbytelen, (leaderHash hs elements fresh i).val j
        = (followerHash hs elements' fresh' startpos k).val j

variable {n N : Nat}

theorem LooksOnlyInside.placedAlike (h : LooksOnlyInside n N) : PlacedAlike n N := by
  intro hf hs hinit elements elements' fresh fresh' i startpos k hsame
  cases k with
  | zero => exact h hf hs hinit _ _ _ _ _ _ hsame
  | succ k => exact h hf hs hinit _ _ _ _ _ _ hsame

/-- **Hashing is local to the element, and so places common elements alike, exactly at the
local widths.** -/
theorem local_and_placedAlike_iff (hn : 1 ≤ n) (h2 : 2 ≤ N) (hN : N < 2 ^ 31) :
    LooksOnlyInside n N ∧ PlacedAlike n N ↔ LocalWidths n N :=
  ⟨fun h => h.1.localWidths hn h2 hN, fun h =>
    have hin := h.looksOnlyInside hn h2 hN
    ⟨hin, hin.placedAlike⟩⟩

/-- Elements of four bytes hash locally, here into five bins. -/
theorem local_and_placedAlike_thirtytwo_five : LooksOnlyInside 32 5 ∧ PlacedAlike 32 5 :=
  (local_and_placedAlike_iff (by decide) (by decide) (by decide)).mpr
    ⟨fun h => absurd h (by decide), fun h => absurd h (by decide)⟩

/-- Elements of two bytes, five bins: 19 bits above the three address bits select a table word
and are stored, of which only 13 are the element's. -/
theorem not_local_sixteen_five : ¬ (LooksOnlyInside 16 5 ∧ PlacedAlike 16 5) := by
  intro hboth
  have h := hboth.1
  have ha : addrbits 16 5 = 3 := by simp [addrbits, ceilLog2, targetLevel]
  have hk : maskbits 16 5 = 19 := by simp [maskbits, ha]
  have := h.address_bits (by decide) (by decide) (by decide) (by decide) (by rw [ha, hk]; decide)
  rw [ha] at this
  exact absurd this (by decide)

end MultiPartyPSI
