import MultiPartyPSI.Hashing.Cuckoo

/-!
# A whole run of cuckoo hashing

`Cuckoo.lean` says what one insertion does. Here it is carried over a run, failures
included: how many bins end up full, who is in them, and what the output arrays say
about it. The cursor of `perm` moves once per full bin, so the entry of bin `b` is
listed at the number of full bins before `b`.
-/

namespace MultiPartyPSI

open Lib Buf

variable {V : Type*}

/-- Making one more number satisfy a predicate counts one more. -/
theorem count_insert {p q : Nat → Prop} [DecidablePred p] [DecidablePred q] {n b : Nat}
    (hb : b < n) (hp : ¬ p b) (hq : ∀ k, q k ↔ p k ∨ k = b) :
    Nat.count q n = Nat.count p n + 1 := by
  rw [Nat.count_eq_card_filter_range, Nat.count_eq_card_filter_range,
    ← Finset.card_insert_of_notMem (a := b) (s := (Finset.range n).filter p) (by simp [hp])]
  congr 1
  ext k
  simp only [Finset.mem_filter, Finset.mem_range, Finset.mem_insert, hq]
  refine ⟨?_, ?_⟩
  · intro h
    rcases h with ⟨hk, h | h⟩
    · exact Or.inr ⟨hk, h⟩
    · exact Or.inl h
  · intro h
    rcases h with rfl | h
    · exact ⟨hb, Or.inr rfl⟩
    · exact ⟨h.1, Or.inl h.2⟩

/-- Every number below the count is the count at some number counted. -/
theorem exists_count_eq {p : Nat → Prop} [DecidablePred p] {i n : Nat} (hi : i < Nat.count p n) :
    ∃ b < n, p b ∧ Nat.count p b = i := by
  induction n with
  | zero => exact absurd hi (Nat.not_lt_zero i)
  | succ n ih =>
      by_cases hlt : i < Nat.count p n
      · obtain ⟨b, hb, h⟩ := ih hlt
        exact ⟨b, Nat.lt_succ_of_lt hb, h⟩
      · rw [Nat.count_succ] at hi
        split at hi
        · next hp => exact ⟨n, Nat.lt_succ_self n, hp, by omega⟩
        · omega

/-! ## Insertions -/

/-- The state after the first `k` elements. -/
structure InsertedUpTo (entries : Buf (CuckooEntry V)) (nbins k : Nat) (s : CuckooTable)
    (failed : List Nat) : Prop where
  placed : WellPlaced entries s
  /-- Only these elements are stored. -/
  lt : ∀ {e}, s.Stored e → e < k
  /-- Every element filled a bin or is reported. -/
  count : Nat.count s.Full nbins + failed.length = k
  /-- Without a report, all of them are stored. -/
  all : failed = [] → ∀ e < k, s.Stored e

section Insertions

variable {entries : Buf (CuckooEntry V)} {nbins neles : Nat}

theorem WellPlaced.empty : WellPlaced entries CuckooTable.empty :=
  ⟨fun h => (nomatch h), fun h => (nomatch h)⟩

theorem count_empty : Nat.count CuckooTable.empty.Full nbins = 0 := by
  induction nbins with
  | zero => rfl
  | succ n ih => rw [Nat.count_succ, ih, if_neg (not_full_iff.mpr rfl)]

theorem InsertedUpTo.empty : InsertedUpTo entries nbins 0 CuckooTable.empty [] :=
  ⟨WellPlaced.empty, fun ⟨_, h⟩ => (nomatch h), count_empty,
    fun _ _ h => absurd h (Nat.not_lt_zero _)⟩

theorem InsertedUpTo.succ {k : Nat} {s s' : CuckooTable} {failed : List Nat} {ok : Bool}
    (hadr : ∀ e < neles, ∀ j < numHashFunctions, (entries e).address j < nbins)
    (hk : k < neles) (h : InsertedUpTo entries nbins k s failed)
    (hi : Inserted entries s k ok s') :
    InsertedUpTo entries nbins (k + 1) s' (if ok then failed else failed ++ [k]) := by
  have hlt : ∀ {e}, s'.Stored e → e < k + 1 := by
    intro e he
    have : s.Stored e ∨ e = k := by
      cases ok with
      | true => exact (hi.stored rfl e).mp he
      | false =>
          obtain ⟨_, _, hall⟩ := hi.lost rfl
          exact ((hall e).mp he).1
    rcases this with h' | rfl
    · exact Nat.lt_succ_of_lt (h.lt h')
    · exact Nat.lt_succ_self e
  have hc := h.count
  cases ok with
  | true =>
      -- one more bin is full, and it is one of the table
      obtain ⟨b, hb, hall⟩ := hi.filled rfl
      have hbn : b < nbins := by
        obtain ⟨e, he⟩ := full_iff.mp ((hall b).mpr (Or.inr rfl))
        obtain ⟨j, hj, rfl⟩ := hi.placed.own he
        exact hadr e (Nat.lt_of_lt_of_le (hlt ⟨_, he⟩) hk) j hj
      refine ⟨hi.placed, hlt, ?_, fun hf e he => ?_⟩
      · rw [if_pos rfl, count_insert hbn hb hall]
        omega
      · rw [hi.stored rfl]
        rcases Nat.lt_succ_iff_lt_or_eq.mp he with h' | h'
        · exact Or.inl (h.all hf e h')
        · exact Or.inr h'
  | false =>
      -- the same bins are full, and one more element is reported
      refine ⟨hi.placed, hlt, ?_, fun hf => ?_⟩
      · have : Nat.count s'.Full nbins = Nat.count s.Full nbins := by
          simp only [Nat.count_eq_card_filter_range, hi.kept rfl]
        simp only [Bool.false_eq_true, if_false, List.length_append, List.length_singleton]
        omega
      · simp at hf

/-- All insertions together never fail to run, and leave such a state. -/
theorem insertElements_spec
    (hadr : ∀ e < neles, ∀ j < numHashFunctions, (entries e).address j < nbins) :
    ∃ s failed, insertElements entries neles = some (s, failed)
      ∧ InsertedUpTo entries nbins neles s failed := by
  obtain ⟨⟨s, failed⟩, hrun, hinv⟩ := loopM_total
    (P := fun k (r : CuckooTable × List Nat) => InsertedUpTo entries nbins k r.1 r.2)
    (f := fun i s => (cuckooInsertElement entries i neles s.1).map fun r =>
      (r.2, if r.1 then s.2 else s.2 ++ [i]))
    (s := (CuckooTable.empty, [])) neles InsertedUpTo.empty
    (fun k r hk hr => by
      have hfresh : ¬ r.1.Stored k := fun hst => absurd (hr.lt hst) (Nat.lt_irrefl k)
      obtain ⟨ok, s', hrun, hi⟩ := cuckooInsertElement_spec neles hr.placed hfresh
      exact ⟨_, by rw [hrun]; rfl, hr.succ hadr hk hi⟩)
  exact ⟨s, failed, hrun, hinv⟩

end Insertions

/-! ## Output arrays -/

theorem leastAddress_some {address : Nat → Nat} {b j : Nat} :
    leastAddress address b = some j
      ↔ j < numHashFunctions ∧ address j = b ∧ ∀ j' < j, address j' ≠ b := by
  rw [leastAddress, List.find?_range_eq_some]
  simp only [beq_iff_eq, List.mem_range, Bool.not_eq_true', beq_eq_false_iff_ne]
  tauto

theorem exists_leastAddress {address : Nat → Nat} {b : Nat}
    (h : ∃ j < numHashFunctions, address j = b) : ∃ j, leastAddress address b = some j := by
  obtain ⟨j, hj, he⟩ := h
  refine Option.isSome_iff_exists.mp (List.find?_isSome.mpr ⟨j, List.mem_range.mpr hj, ?_⟩)
  exact beq_iff_eq.mpr he

/-- The arrays once the first `k` bins are copied. -/
structure CopiedUpTo (dummy : V) (entries : Buf (CuckooEntry V)) (s : CuckooTable) (k : Nat)
    (out : CuckooOutput V) : Prop where
  hashTable : ∀ b < k, out.hashTable b = match s.table b with
    | some e => (entries e).val
    | none => dummy
  nelesinbin : ∀ b < k, out.nelesinbin b = if s.Full b then 1 else 0
  binIds : ∀ b, out.binIds b = match s.table b with
    | some e => if b < k then (entries e).eleid + 1 else 0
    | none => 0
  hashedBy : ∀ b < k, ∀ e, s.table b = some e →
    leastAddress (entries e).address b = some (out.hashedBy b)
  permPtr : out.permPtr = Nat.count s.Full k
  /-- The entry of a full bin is listed at the number of full bins before. -/
  perm : ∀ b < k, ∀ e, s.table b = some e → out.perm (Nat.count s.Full b) = (entries e).eleid
  /-- Behind the listed entries `perm` keeps its zeros. -/
  perm_tail : ∀ i, Nat.count s.Full k ≤ i → out.perm i = 0

section Copy

variable {dummy : V} {entries : Buf (CuckooEntry V)} {s : CuckooTable}

theorem CopiedUpTo.zero [Zero V] : CopiedUpTo dummy entries s 0 CuckooOutput.zero := by
  refine ⟨nofun, nofun, fun b => ?_, nofun, rfl, nofun, fun _ _ => rfl⟩
  cases s.table b <;> simp [CuckooOutput.zero]

/-- An empty bin gets the dummy value, and nothing is listed for it. -/
theorem CopiedUpTo.succ_empty {k : Nat} {out : CuckooOutput V}
    (h : CopiedUpTo dummy entries s k out) (ht : s.table k = none) :
    CopiedUpTo dummy entries s (k + 1) (copyBin dummy entries s k out) := by
  have hnf : ¬ s.Full k := not_full_iff.mpr ht
  have hcount : Nat.count s.Full (k + 1) = Nat.count s.Full k := by
    rw [Nat.count_succ, if_neg hnf, Nat.add_zero]
  have hne : ∀ {b e}, s.table b = some e → b ≠ k := by
    intro b e hb hbk
    rw [hbk, ht] at hb
    cases hb
  simp only [copyBin, ht]
  refine ⟨fun b hb => ?_, fun b hb => ?_, fun b => ?_, fun b hb e he => ?_, ?_,
    fun b hb e he => ?_, fun i hi => h.perm_tail i (hcount ▸ hi)⟩
  · dsimp only
    by_cases hk : b = k
    · subst hk
      simp [ht]
    · rw [write_ne _ _ hk]
      exact h.hashTable b (by omega)
  · dsimp only
    by_cases hk : b = k
    · subst hk
      simp [hnf]
    · rw [write_ne _ _ hk]
      exact h.nelesinbin b (by omega)
  · rw [h.binIds]
    cases hb : s.table b with
    | none => rfl
    | some e =>
        have := hne hb
        exact if_congr (by omega) rfl rfl
  · have := hne he
    exact h.hashedBy b (by omega) e he
  · rw [hcount]
    exact h.permPtr
  · have := hne he
    exact h.perm b (by omega) e he

/-- The entry of a full bin is copied and listed. -/
theorem CopiedUpTo.succ_full {k e₀ : Nat} {out : CuckooOutput V} (hw : WellPlaced entries s)
    (h : CopiedUpTo dummy entries s k out) (ht : s.table k = some e₀) :
    CopiedUpTo dummy entries s (k + 1) (copyBin dummy entries s k out) := by
  have hf : s.Full k := full_iff.mpr ⟨e₀, ht⟩
  have hcount : Nat.count s.Full (k + 1) = Nat.count s.Full k + 1 := by
    rw [Nat.count_succ, if_pos hf]
  -- the entry hashes to its bin, so the hash function that is looked for is found
  obtain ⟨j, hj⟩ := exists_leastAddress (hw.own ht)
  simp only [copyBin, ht, hj]
  refine ⟨fun b hb => ?_, fun b hb => ?_, fun b => ?_, fun b hb e he => ?_, ?_,
    fun b hb e he => ?_, fun i hi => ?_⟩
  · dsimp only
    by_cases hk : b = k
    · subst hk
      simp [ht]
    · rw [write_ne _ _ hk]
      exact h.hashTable b (by omega)
  · dsimp only
    by_cases hk : b = k
    · subst hk
      simp [hf]
    · rw [write_ne _ _ hk]
      exact h.nelesinbin b (by omega)
  · dsimp only
    by_cases hk : b = k
    · subst hk
      simp [ht]
    · rw [write_ne _ _ hk, h.binIds]
      cases s.table b with
      | none => rfl
      | some e => exact if_congr (by omega) rfl rfl
  · dsimp only
    by_cases hk : b = k
    · subst hk
      rw [ht] at he
      cases he
      rw [write_same]
      exact hj
    · rw [write_ne _ _ hk]
      exact h.hashedBy b (by omega) e he
  · rw [h.permPtr, hcount]
  · dsimp only
    by_cases hk : b = k
    · subst hk
      rw [ht] at he
      cases he
      rw [h.permPtr, write_same]
    · -- the place of an earlier bin in the list is an earlier one
      have hlt : Nat.count s.Full b < Nat.count s.Full k :=
        Nat.count_strict_mono (full_iff.mpr ⟨e, he⟩) (by omega)
      rw [h.permPtr, write_ne _ _ hlt.ne]
      exact h.perm b (by omega) e he
  · dsimp only
    rw [hcount] at hi
    rw [h.permPtr, write_ne _ _ (by omega)]
    exact h.perm_tail i (by omega)

theorem CopiedUpTo.succ {k : Nat} {out : CuckooOutput V} (hw : WellPlaced entries s)
    (h : CopiedUpTo dummy entries s k out) :
    CopiedUpTo dummy entries s (k + 1) (copyBin dummy entries s k out) := by
  cases ht : s.table k with
  | none => exact h.succ_empty ht
  | some e => exact h.succ_full hw ht

theorem copyTable_spec [Zero V] (dummy : V) (hw : WellPlaced entries s) (nbins : Nat) :
    CopiedUpTo dummy entries s nbins (copyTable dummy entries nbins s) :=
  loop_induct nbins CopiedUpTo.zero fun _ _ _ h => h.succ hw

end Copy

/-! ## The run -/

/-- What a finished run of cuckoo hashing leaves behind. -/
structure CuckooRun.Spec (dummy : V) (hash : Nat → Hashed V) (neles nbins : Nat)
    (run : CuckooRun V) : Prop where
  /-- A stored element is one of the set, in a bin it hashes to. -/
  own : ∀ {b e}, run.final.table b = some e →
    e < neles ∧ b < nbins ∧ ∃ j < numHashFunctions, (hash e).address j = b
  /-- No element is in two bins. -/
  unique : ∀ {b b' e}, run.final.table b = some e → run.final.table b' = some e → b = b'
  /-- Every element fills a bin or is reported. -/
  count : Nat.count run.final.Full nbins + run.failed.length = neles
  /-- Without a report, every element is stored. -/
  all : run.failed = [] → ∀ e < neles, run.final.Stored e
  hashTable : ∀ b < nbins, run.out.hashTable b = match run.final.table b with
    | some e => (hash e).val
    | none => dummy
  nelesinbin : ∀ b < nbins, run.out.nelesinbin b = if run.final.Full b then 1 else 0
  binIds : ∀ b < nbins, run.out.binIds b = match run.final.table b with
    | some e => e + 1
    | none => 0
  hashedBy : ∀ {b e}, run.final.table b = some e →
    leastAddress (hash e).address b = some (run.out.hashedBy b)
  /-- The element of a full bin is listed at the number of full bins before. -/
  perm : ∀ {b e}, run.final.table b = some e → run.out.perm (Nat.count run.final.Full b) = e
  /-- Behind the listed elements `perm` keeps its zeros. -/
  perm_tail : ∀ i, Nat.count run.final.Full nbins ≤ i → run.out.perm i = 0

/-- Cuckoo hashing never follows a null pointer, and leaves such a run. -/
theorem cuckooHashing_spec [Zero V] (dummy : V) {hash : Nat → Hashed V} {neles nbins ntasks : Nat}
    (hn : 0 < ntasks) (hadr : ∀ e < neles, ∀ j < numHashFunctions, (hash e).address j < nbins)
    (fresh : Buf (CuckooEntry V)) :
    ∃ run, cuckooHashing dummy hash neles nbins ntasks fresh = some run
      ∧ run.Spec dummy hash neles nbins := by
  -- the entries of the elements are the same however many threads make them
  have hgen : ∀ e < neles,
      genCuckooEntries hash neles ntasks fresh e = genCuckooEntry hash e :=
    fun e he => genCuckooEntries_apply hash neles hn fresh he
  have hadr' : ∀ e < neles, ∀ j < numHashFunctions,
      (genCuckooEntries hash neles ntasks fresh e).address j < nbins := fun e he j hj => by
    rw [hgen e he]
    exact hadr e he j hj
  obtain ⟨s, failed, hrun, hins⟩ := insertElements_spec hadr'
  have hcop := copyTable_spec dummy hins.placed nbins
  have hstored : ∀ {b e}, s.table b = some e → e < neles ∧ b < nbins
      ∧ ∃ j < numHashFunctions, (hash e).address j = b := by
    intro b e hb
    have he : e < neles := hins.lt ⟨b, hb⟩
    obtain ⟨j, hj, hjb⟩ := hins.placed.own hb
    rw [hgen e he] at hjb
    exact ⟨he, hjb ▸ hadr e he j hj, j, hj, hjb⟩
  refine ⟨⟨s, failed, copyTable dummy _ nbins s⟩, ?_, hstored, hins.placed.unique, hins.count,
    hins.all, fun b hb => ?_, hcop.nelesinbin, fun b hb => ?_, fun {b e} hb => ?_,
    fun {b e} hb => ?_, hcop.perm_tail⟩
  · simp only [cuckooHashing, hrun]
    rfl
  · rw [hcop.hashTable b hb]
    cases hs : s.table b with
    | none => rfl
    | some e => exact congrArg CuckooEntry.val (hgen e (hstored hs).1)
  · rw [hcop.binIds]
    cases hs : s.table b with
    | none => rfl
    | some e =>
        dsimp only
        rw [if_pos hb, hgen e (hstored hs).1]
        rfl
  · have := hcop.hashedBy b (hstored hb).2.1 e hb
    rwa [hgen e (hstored hb).1] at this
  · have := hcop.perm b (hstored hb).2.1 e hb
    rwa [hgen e (hstored hb).1] at this

/-! ## Any sequence of insertions

`cuckoo_hashing` inserts every element once and with the same bound. Nothing above uses
that: it is enough that no entry is inserted while it is in a bin. -/

/-- The tables that calls of `insert_element` make of the empty one, successful or not, each
for an entry that is in no bin. -/
inductive CuckooTable.Reached (entries : Buf (CuckooEntry V)) : CuckooTable → Prop where
  | empty : CuckooTable.Reached entries CuckooTable.empty
  | insert {s s' : CuckooTable} {element maxIterations : Nat} {ok : Bool} :
      CuckooTable.Reached entries s → ¬ s.Stored element →
      cuckooInsertElement entries element maxIterations s = some (ok, s') →
      CuckooTable.Reached entries s'

section Reached

variable {entries : Buf (CuckooEntry V)} {s : CuckooTable} {held : Nat}

theorem CuckooTable.Reached.wellPlaced (h : CuckooTable.Reached entries s) :
    WellPlaced entries s := by
  induction h with
  | empty => exact WellPlaced.empty
  | @insert s s' element maxIterations ok _ hnew hrun ih =>
      obtain ⟨ok', t, hrun', hins⟩ := cuckooInsertElement_spec maxIterations ih hnew
      rw [hrun'] at hrun
      cases hrun
      exact hins.placed

/-- After a failure exactly one entry has no bin any more. -/
theorem Inserted.existsUnique_lost {s' : CuckooTable} (h : Inserted entries s held false s') :
    ∃! l, (s.Stored l ∨ l = held) ∧ ¬ s'.Stored l := by
  obtain ⟨l, hl, hall⟩ := h.lost rfl
  refine ⟨l, ⟨hl, fun hs => ((hall l).mp hs).2 rfl⟩, ?_⟩
  intro l' hl'
  by_contra hne
  exact hl'.2 ((hall l').mpr ⟨hl'.1, hne⟩)

end Reached

/-- **Insertion neither loses nor duplicates**, whatever was inserted before and however many
rounds it is given: it never evicts from an empty bin, leaves every entry in one bin, its own,
and either stores one more or misses exactly one. So after `cuckoo_hashing` the element of a
full bin is there by the hash function noted for the bin. -/
theorem cuckoo_insertions_keep_entries [Zero V] (dummy : V) :
    (∀ (entries : Buf (CuckooEntry V)) (s : CuckooTable) (held maxIterations : Nat),
      CuckooTable.Reached entries s → ¬ s.Stored held →
      ∃ ok s', cuckooInsertElement entries held maxIterations s = some (ok, s') ∧
        (∀ b e, s'.table b = some e → ∃ j < numHashFunctions, (entries e).address j = b) ∧
        (∀ b b' e, s'.table b = some e → s'.table b' = some e → b = b') ∧
        (ok = true → ∀ e, s'.Stored e ↔ s.Stored e ∨ e = held) ∧
        (ok = false → (∀ e, s'.Stored e → s.Stored e ∨ e = held) ∧
          ∃! l, (s.Stored l ∨ l = held) ∧ ¬ s'.Stored l)) ∧
    (∀ (hash : Nat → Hashed V) (neles nbins ntasks : Nat) (fresh : Buf (CuckooEntry V)),
      0 < ntasks → (∀ e < neles, ∀ j < numHashFunctions, (hash e).address j < nbins) →
      ∃ run, cuckooHashing dummy hash neles nbins ntasks fresh = some run ∧
        ∀ b e, run.final.table b = some e → e < neles ∧
          run.out.hashedBy b < numHashFunctions ∧ (hash e).address (run.out.hashedBy b) = b) := by
  refine ⟨?_, ?_⟩
  · intro entries s held maxIterations hs hnew
    obtain ⟨ok, s', hrun, hins⟩ := cuckooInsertElement_spec maxIterations hs.wellPlaced hnew
    refine ⟨ok, s', hrun, fun b e => hins.placed.own, fun b b' e => hins.placed.unique,
      hins.stored, fun hok => ⟨fun e he => ?_, ?_⟩⟩
    · obtain ⟨l, _, hall⟩ := hins.lost hok
      exact ((hall e).mp he).1
    · subst hok
      exact hins.existsUnique_lost
  · intro hash neles nbins ntasks fresh hn hadr
    obtain ⟨run, hrun, hspec⟩ := cuckooHashing_spec dummy hn hadr fresh
    refine ⟨run, hrun, fun b e hb => ?_⟩
    obtain ⟨hlt, hadr, -⟩ := leastAddress_some.mp (hspec.hashedBy hb)
    exact ⟨(hspec.own hb).1, hlt, hadr⟩

/-- Entry 0 has the bins 0, 1 and 2, every other entry only bin 0. -/
def evictingEntries : Buf (CuckooEntry Nat) := fun e => ⟨e, fun j => if e = 0 then j else 0, e⟩

/-- The table with entry 0 in bin 0. -/
def oneEntryTable : CuckooTable :=
  CuckooTable.empty.place 0 0 (CuckooTable.empty.pos.write 0 0)

theorem oneEntryTable_reached : CuckooTable.Reached evictingEntries oneEntryTable :=
  @CuckooTable.Reached.insert Nat _ _ _ 0 1 true CuckooTable.Reached.empty
    (fun h => nomatch h.choose_spec) rfl

theorem not_stored_oneEntryTable : ¬ oneEntryTable.Stored 1 := by
  rintro ⟨b, hb⟩
  rw [oneEntryTable, place_table] at hb
  split at hb
  · cases hb
  · cases hb

/-- Entry 1 throws entry 0 out of bin 0. With two rounds entry 0 comes into bin 1, with one round
an entry is left over; `cuckoo_hashing` of the two elements has two rounds. -/
theorem cuckoo_insertions_keep_entries_two :
    (∃ s', cuckooInsertElement evictingEntries 1 2 oneEntryTable = some (true, s') ∧
        ∀ e, s'.Stored e ↔ oneEntryTable.Stored e ∨ e = 1) ∧
      (∃ s', cuckooInsertElement evictingEntries 1 1 oneEntryTable = some (false, s') ∧
        ∃! l, (oneEntryTable.Stored l ∨ l = 1) ∧ ¬ s'.Stored l) ∧
      ∃ run, cuckooHashing 0 (fun e => ⟨(evictingEntries e).address, e⟩) 2 3 1 evictingEntries
          = some run ∧
        run.final.table 0 = some 1 ∧ run.final.table 1 = some 0 ∧ run.out.hashedBy 1 = 1 := by
  have hinsert := (cuckoo_insertions_keep_entries (0 : Nat)).1 evictingEntries oneEntryTable 1
  refine ⟨?_, ?_, ?_⟩
  · obtain ⟨ok, s', hrun, -, -, hstored, -⟩ :=
      hinsert 2 oneEntryTable_reached not_stored_oneEntryTable
    have hok : (cuckooInsertElement evictingEntries 1 2 oneEntryTable).map Prod.fst
        = some true := by
      decide
    rw [hrun] at hok
    obtain rfl := Option.some.inj hok
    exact ⟨s', hrun, hstored rfl⟩
  · obtain ⟨ok, s', hrun, -, -, -, hlost⟩ :=
      hinsert 1 oneEntryTable_reached not_stored_oneEntryTable
    have hok : (cuckooInsertElement evictingEntries 1 1 oneEntryTable).map Prod.fst
        = some false := by
      decide
    rw [hrun] at hok
    obtain rfl := Option.some.inj hok
    exact ⟨s', hrun, (hlost rfl).2⟩
  · obtain ⟨run, hrun, hfull⟩ := (cuckoo_insertions_keep_entries (0 : Nat)).2
      (fun e => ⟨(evictingEntries e).address, e⟩) 2 3 1 evictingEntries (by decide) (by decide)
    have hval : (cuckooHashing 0 (fun e => ⟨(evictingEntries e).address, e⟩) 2 3 1
        evictingEntries).map (fun run => (run.final.table 0, run.final.table 1))
        = some (some 1, some 0) := by
      decide
    rw [hrun] at hval
    obtain ⟨h0, h1⟩ := Prod.mk.inj (Option.some.inj hval)
    refine ⟨run, hrun, h0, h1, ?_⟩
    -- bin 1 is the second bin of entry 0
    obtain ⟨-, -, hadr⟩ := hfull 1 0 h1
    exact hadr

end MultiPartyPSI
