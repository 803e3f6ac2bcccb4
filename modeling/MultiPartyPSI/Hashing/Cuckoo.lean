import MultiPartyPSI.Hashing.HashingUtil
import MultiPartyPSI.Util.Threads
import Mathlib.Data.Nat.Count

/-!
# Cuckoo hashing

`cuckoo.cpp`. A bin holds at most one element. An insertion tries the element's three
bins; if all are taken it throws the element of one of them out, takes its place and
goes on with the one thrown out, for as many rounds as there are elements. An
insertion that runs out of rounds leaves one element, not necessarily the one that was
to be inserted, without a bin.

A table points into the array of entries, so it is modelled by indices. The only field
of an entry that changes is `pos`, which is kept beside the table.
-/

namespace MultiPartyPSI

open Lib Buf

variable {V : Type*}

/-- `cuckoo_entry_ctx`, but for `pos`. -/
structure CuckooEntry (V : Type*) where
  eleid : Nat
  address : Nat → Nat
  val : V

/-- `cuckoo_table`, and the `pos` of every entry. -/
structure CuckooTable where
  table : Buf (Option Nat)
  pos : Buf Nat

/-- The table after `calloc`, the entries after `gen_cuckoo_entry`. -/
def CuckooTable.empty : CuckooTable := ⟨fun _ => none, fun _ => 0⟩

/-- `ctable[b] = e`, with the positions as they are then. -/
def CuckooTable.place (s : CuckooTable) (b e : Nat) (pos : Buf Nat) : CuckooTable :=
  ⟨s.table.write b (some e), pos⟩

/-- `gen_cuckoo_entry`, on the result of `hashElement`. -/
def genCuckooEntry (hash : Nat → Hashed V) (eleid : Nat) : CuckooEntry V :=
  ⟨eleid, (hash eleid).address, (hash eleid).val⟩

/-- `gen_cuckoo_entries`, by all threads, into freshly allocated entries. -/
def genCuckooEntries (hash : Nat → Hashed V) (neles ntasks : Nat) (fresh : Buf (CuckooEntry V)) :
    Buf (CuckooEntry V) :=
  forTasks neles ntasks (fun i entries => entries.write i (genCuckooEntry hash i)) fresh

/-- The first address of `evicted` whose bin is empty. -/
def freeAddress (entries : Buf (CuckooEntry V)) (s : CuckooTable) (evicted : Nat) : Option Nat :=
  (List.range numHashFunctions).find? fun i => (s.table ((entries evicted).address i)).isNone

/-- The rounds of `insert_element` from round `iter_cnt` on, `evicted` being without a
bin. It fails where the code would follow a null pointer. -/
def insertFrom (entries : Buf (CuckooEntry V)) :
    (rounds iterCnt evicted : Nat) → CuckooTable → Option (Bool × CuckooTable)
  | 0, _, _, s => some (false, s)
  | rounds + 1, iterCnt, evicted, s =>
    match freeAddress entries s evicted with
    | some i =>
        some (true, s.place ((entries evicted).address i) evicted (s.pos.write evicted i))
    | none =>
        let evPos := (entries evicted).address ((s.pos evicted ^^^ iterCnt) % numHashFunctions)
        match s.table evPos with
        | none => none
        | some tmpEvicted =>
            insertFrom entries rounds (iterCnt + 1) tmpEvicted
              (s.place evPos evicted
                (s.pos.write tmpEvicted ((s.pos tmpEvicted + 1) % numHashFunctions)))

/-- `insert_element`. -/
def cuckooInsertElement (entries : Buf (CuckooEntry V)) (element maxIterations : Nat)
    (s : CuckooTable) : Option (Bool × CuckooTable) :=
  insertFrom entries maxIterations 0 element s

/-- Insert one element after the other; the second component collects those for which
"Insertion not successful" is printed. -/
def insertElements (entries : Buf (CuckooEntry V)) (neles : Nat) :
    Option (CuckooTable × List Nat) :=
  loopM (fun i s =>
    (cuckooInsertElement entries i neles s.1).map fun r =>
      (r.2, if r.1 then s.2 else s.2 ++ [i])) neles (CuckooTable.empty, [])

/-- What `cuckoo_hashing` returns and the arrays it fills, with the `perm` cursor. -/
structure CuckooOutput (V : Type*) where
  hashTable : Buf V
  nelesinbin : Buf Nat
  perm : Buf Nat
  permPtr : Nat
  binIds : Buf Nat
  hashedBy : Buf Nat

/-- The arrays as `runAsLeader` passes them: zeroed. -/
def CuckooOutput.zero [Zero V] : CuckooOutput V :=
  ⟨fun _ => 0, fun _ => 0, fun _ => 0, 0, fun _ => 0, fun _ => 0⟩

/-- The first hash function that sends an entry to bin `i`. -/
def leastAddress (address : Nat → Nat) (i : Nat) : Option Nat :=
  (List.range numHashFunctions).find? fun j => address j == i

/-- Copy bin `i` out; `dummy` fills the value of an empty bin. -/
def copyBin (dummy : V) (entries : Buf (CuckooEntry V)) (s : CuckooTable) (i : Nat)
    (out : CuckooOutput V) : CuckooOutput V :=
  match s.table i with
  | some e =>
      { hashTable := out.hashTable.write i (entries e).val
        nelesinbin := out.nelesinbin.write i 1
        perm := out.perm.write out.permPtr (entries e).eleid
        permPtr := out.permPtr + 1
        binIds := out.binIds.write i ((entries e).eleid + 1)
        hashedBy := match leastAddress (entries e).address i with
          | some j => out.hashedBy.write i j
          | none => out.hashedBy }
  | none =>
      { out with
        hashTable := out.hashTable.write i dummy
        nelesinbin := out.nelesinbin.write i 0 }

/-- Copy the final state of the cuckoo table out. -/
def copyTable [Zero V] (dummy : V) (entries : Buf (CuckooEntry V)) (nbins : Nat)
    (s : CuckooTable) : CuckooOutput V :=
  loop (copyBin dummy entries s) nbins CuckooOutput.zero

/-- A run of `cuckoo_hashing`: the final table, the elements reported as not inserted, and
the output arrays. -/
structure CuckooRun (V : Type*) where
  final : CuckooTable
  failed : List Nat
  out : CuckooOutput V

/-- `cuckoo_hashing`. -/
def cuckooHashing [Zero V] (dummy : V) (hash : Nat → Hashed V) (neles nbins ntasks : Nat)
    (fresh : Buf (CuckooEntry V)) : Option (CuckooRun V) :=
  let entries := genCuckooEntries hash neles ntasks fresh
  (insertElements entries neles).map fun r => ⟨r.1, r.2, copyTable dummy entries nbins r.1⟩

/-! ## Entries -/

/-- With a thread to do it, every entry is generated. -/
theorem genCuckooEntries_apply (hash : Nat → Hashed V) (neles : Nat) {ntasks : Nat}
    (hn : 0 < ntasks) (fresh : Buf (CuckooEntry V)) {e : Nat} (he : e < neles) :
    genCuckooEntries hash neles ntasks fresh e = genCuckooEntry hash e := by
  refine forTasks_range (P := fun k (m : Buf (CuckooEntry V)) =>
    ∀ e < k, m e = genCuckooEntry hash e) hn ?_ ?_ e he
  · intro e he
    omega
  · intro k m _ hm e he
    by_cases hk : e = k
    · subst hk
      exact write_same _ _ _
    · rw [write_ne _ _ hk]
      exact hm e (by omega)

/-! ## Where entries are -/

/-- Entry `e` is in some bin. -/
def CuckooTable.Stored (s : CuckooTable) (e : Nat) : Prop := ∃ b, s.table b = some e

/-- Bin `b` holds an entry. -/
def CuckooTable.Full (s : CuckooTable) (b : Nat) : Prop := (s.table b).isSome

instance (s : CuckooTable) : DecidablePred s.Full := fun b =>
  inferInstanceAs (Decidable ((s.table b).isSome = true))

/-- Entries are in bins they have the address of, each in one bin. -/
structure WellPlaced (entries : Buf (CuckooEntry V)) (s : CuckooTable) : Prop where
  /-- A stored entry hashes to its bin. -/
  own : ∀ {b e}, s.table b = some e → ∃ j < numHashFunctions, (entries e).address j = b
  /-- No entry is in two bins. -/
  unique : ∀ {b b' e}, s.table b = some e → s.table b' = some e → b = b'

/-- What an insertion of `held`, stored nowhere, does to the table. -/
structure Inserted (entries : Buf (CuckooEntry V)) (s : CuckooTable) (held : Nat) (ok : Bool)
    (s' : CuckooTable) : Prop where
  placed : WellPlaced entries s'
  /-- A success stores `held` and keeps all others. -/
  stored : ok = true → ∀ e, s'.Stored e ↔ s.Stored e ∨ e = held
  /-- A failure leaves exactly one of them out. -/
  lost : ok = false → ∃ l, (s.Stored l ∨ l = held) ∧
    ∀ e, s'.Stored e ↔ (s.Stored e ∨ e = held) ∧ e ≠ l
  /-- A success fills one more bin, an address of some entry. -/
  filled : ok = true → ∃ b, ¬ s.Full b ∧ ∀ b', s'.Full b' ↔ s.Full b' ∨ b' = b
  /-- A failure fills none. -/
  kept : ok = false → ∀ b', s'.Full b' ↔ s.Full b'

section Insertion

variable {entries : Buf (CuckooEntry V)} {s : CuckooTable} {held : Nat}

theorem full_iff {b : Nat} : s.Full b ↔ ∃ e, s.table b = some e := Option.isSome_iff_exists

theorem not_full_iff {b : Nat} : ¬ s.Full b ↔ s.table b = none := by
  rw [CuckooTable.Full, Bool.not_eq_true, Option.isSome_eq_false_iff, Option.isNone_iff_eq_none]

theorem freeAddress_some {i : Nat} (h : freeAddress entries s held = some i) :
    i < numHashFunctions ∧ s.table ((entries held).address i) = none :=
  ⟨List.mem_range.mp (List.mem_of_find?_eq_some h),
    Option.isNone_iff_eq_none.mp (List.find?_some (p := fun i =>
      (s.table ((entries held).address i)).isNone) h)⟩

theorem freeAddress_none (h : freeAddress entries s held = none) {i : Nat}
    (hi : i < numHashFunctions) : ∃ e, s.table ((entries held).address i) = some e := by
  have := List.find?_eq_none.mp h i (List.mem_range.mpr hi)
  rw [Option.isNone_iff_eq_none] at this
  exact Option.ne_none_iff_exists'.mp this

theorem place_table (b e : Nat) (pos : Buf Nat) (b' : Nat) :
    (s.place b e pos).table b' = if b' = b then some e else s.table b' := rfl

theorem full_place (b e : Nat) (pos : Buf Nat) (b' : Nat) :
    (s.place b e pos).Full b' ↔ s.Full b' ∨ b' = b := by
  rw [CuckooTable.Full, place_table]
  by_cases h : b' = b
  · simp [h]
  · simp [h, CuckooTable.Full]

/-- An entry stored nowhere may be put into any bin it has the address of. -/
theorem WellPlaced.place (hw : WellPlaced entries s) (hh : ¬ s.Stored held) {i : Nat}
    (hi : i < numHashFunctions) (pos : Buf Nat) :
    WellPlaced entries (s.place ((entries held).address i) held pos) := by
  refine ⟨fun {b e} h => ?_, fun {b b' e} h h' => ?_⟩
  · rw [place_table] at h
    split at h
    · next hbi => cases h; exact ⟨i, hi, hbi.symm⟩
    · exact hw.own h
  · rw [place_table] at h h'
    split at h <;> split at h'
    · next h1 h2 => rw [h1, h2]
    · cases h; exact absurd ⟨_, h'⟩ hh
    · cases h'; exact absurd ⟨_, h⟩ hh
    · exact hw.unique h h'

/-- Writing an entry into an empty bin that is one of its addresses. -/
theorem Inserted.free (hw : WellPlaced entries s) (hh : ¬ s.Stored held) {i : Nat}
    (hi : i < numHashFunctions) (hb : s.table ((entries held).address i) = none) (pos : Buf Nat) :
    Inserted entries s held true (s.place ((entries held).address i) held pos) := by
  refine ⟨hw.place hh hi pos, fun _ e => ⟨?_, ?_⟩, nofun,
    fun _ => ⟨_, not_full_iff.mpr hb, full_place _ _ _⟩, nofun⟩
  · intro hs
    obtain ⟨b, h⟩ := hs
    rw [place_table] at h
    split at h
    · cases h
      exact Or.inr rfl
    · exact Or.inl ⟨b, h⟩
  · intro hs
    rcases hs with ⟨b, h⟩ | rfl
    · refine ⟨b, (place_table _ _ _ _).trans ((if_neg ?_).trans h)⟩
      intro heq
      subst heq
      rw [hb] at h
      cases h
    · exact ⟨_, (place_table _ _ _ _).trans (if_pos rfl)⟩

/-- Throwing `tmp` out of a bin for `held`: then `tmp` is the one stored nowhere. -/
structure Evicted (entries : Buf (CuckooEntry V)) (s : CuckooTable) (held tmp : Nat)
    (s' : CuckooTable) : Prop where
  placed : WellPlaced entries s'
  was : s.Stored tmp
  out : ¬ s'.Stored tmp
  stored : ∀ e, s'.Stored e ↔ (s.Stored e ∨ e = held) ∧ e ≠ tmp
  full : ∀ b, s'.Full b ↔ s.Full b

theorem Evicted.place (hw : WellPlaced entries s) (hh : ¬ s.Stored held) {i tmp : Nat}
    (hi : i < numHashFunctions) (hb : s.table ((entries held).address i) = some tmp)
    (pos : Buf Nat) :
    Evicted entries s held tmp (s.place ((entries held).address i) held pos) := by
  have hne : tmp ≠ held := by
    intro heq
    subst heq
    exact hh ⟨_, hb⟩
  have hstored : ∀ e, (s.place ((entries held).address i) held pos).Stored e
      ↔ (s.Stored e ∨ e = held) ∧ e ≠ tmp := by
    intro e
    refine ⟨?_, ?_⟩
    · intro hs
      obtain ⟨b, h⟩ := hs
      rw [place_table] at h
      split at h
      · cases h
        exact ⟨Or.inr rfl, hne.symm⟩
      · next hbi =>
          refine ⟨Or.inl ⟨b, h⟩, ?_⟩
          intro heq
          subst heq
          exact hbi (hw.unique h hb)
    · intro hs
      rcases hs with ⟨⟨b, h⟩ | rfl, het⟩
      · refine ⟨b, (place_table _ _ _ _).trans ((if_neg ?_).trans h)⟩
        intro heq
        subst heq
        rw [hb] at h
        exact het (Option.some.inj h).symm
      · exact ⟨_, (place_table _ _ _ _).trans (if_pos rfl)⟩
  refine ⟨hw.place hh hi pos, ⟨_, hb⟩, fun h => ((hstored tmp).mp h).2 rfl, hstored, fun b => ?_⟩
  rw [full_place, or_iff_left_iff_imp]
  intro heq
  subst heq
  exact full_iff.mpr ⟨tmp, hb⟩

/-- An insertion that follows an eviction has done both. -/
theorem Evicted.trans {tmp : Nat} {s₁ s' : CuckooTable} {ok : Bool}
    (he : Evicted entries s held tmp s₁) (hi : Inserted entries s₁ tmp ok s') :
    Inserted entries s held ok s' := by
  have hback : ∀ e, (s₁.Stored e ∨ e = tmp) ↔ (s.Stored e ∨ e = held) := by
    intro e
    rw [he.stored]
    refine ⟨?_, ?_⟩
    · intro h
      rcases h with h | rfl
      · exact h.1
      · exact Or.inl he.was
    · intro h
      by_cases ht : e = tmp
      · exact Or.inr ht
      · exact Or.inl ⟨h, ht⟩
  refine ⟨hi.placed, fun hok e => (hi.stored hok e).trans (hback e), fun hok => ?_,
    fun hok => ?_, fun hok b' => (hi.kept hok b').trans (he.full b')⟩
  · obtain ⟨l, hl, hall⟩ := hi.lost hok
    exact ⟨l, (hback l).mp hl, fun e => (hall e).trans (and_congr_left' (hback e))⟩
  · obtain ⟨b, hb, hall⟩ := hi.filled hok
    exact ⟨b, fun h => hb ((he.full b).mpr h),
      fun b' => (hall b').trans (or_congr_left (he.full b'))⟩

/-- Insertion never meets an empty bin where it evicts, and does what it should. -/
theorem insertFrom_spec (rounds iterCnt : Nat) (hw : WellPlaced entries s)
    (hh : ¬ s.Stored held) :
    ∃ ok s', insertFrom entries rounds iterCnt held s = some (ok, s')
      ∧ Inserted entries s held ok s' := by
  induction rounds generalizing iterCnt held s with
  | zero =>
      refine ⟨false, s, rfl, hw, nofun, fun _ => ⟨held, Or.inr rfl, fun e => ?_⟩, nofun,
        fun _ _ => Iff.rfl⟩
      refine ⟨?_, ?_⟩
      · intro h
        refine ⟨Or.inl h, ?_⟩
        intro heq
        subst heq
        exact hh h
      · intro h
        rcases h with ⟨h | h, hne⟩
        · exact h
        · exact absurd h hne
  | succ rounds ih =>
      cases hf : freeAddress entries s held with
      | some i =>
          obtain ⟨hi, hb⟩ := freeAddress_some hf
          exact ⟨true, _, by simp only [insertFrom, hf]; rfl, Inserted.free hw hh hi hb _⟩
      | none =>
          have hi : (s.pos held ^^^ iterCnt) % numHashFunctions < numHashFunctions :=
            Nat.mod_lt _ (by decide)
          obtain ⟨tmp, htmp⟩ := freeAddress_none hf hi
          have hev := Evicted.place hw hh hi htmp
            (s.pos.write tmp ((s.pos tmp + 1) % numHashFunctions))
          obtain ⟨ok, s', hrun, hins⟩ := ih (iterCnt + 1) hev.placed hev.out
          exact ⟨ok, s', by simp only [insertFrom, hf, htmp]; exact hrun, hev.trans hins⟩

theorem cuckooInsertElement_spec (maxIterations : Nat) (hw : WellPlaced entries s)
    (hh : ¬ s.Stored held) :
    ∃ ok s', cuckooInsertElement entries held maxIterations s = some (ok, s')
      ∧ Inserted entries s held ok s' :=
  insertFrom_spec maxIterations 0 hw hh

end Insertion

end MultiPartyPSI
