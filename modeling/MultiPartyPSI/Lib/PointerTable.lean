import Mathlib.Logic.Basic

/-!
# Hash tables that keep pointers

A table that is given the address of a key keeps the address and the hash that the key had then.
It compares keys by what the addresses hold at the time of the comparison. So keys that were all
written to one address are equal to each other from then on, and all that tells their entries apart
is the hash: `lookup_insert_of_alias`.
-/

namespace Lib

/-- An entry: the hash and the address of its key, and its value. -/
structure PointerEntry (Ptr V : Type*) where
  hash : Nat
  key : Ptr
  value : V

namespace PointerTable

variable {Ptr C V : Type*} [DecidableEq C] (hash : C → Nat) (contents : Ptr → C)

/-- The stored hash is that of the query, and both addresses hold the same. -/
def Matches (entry : PointerEntry Ptr V) (query : Ptr) : Prop :=
  entry.hash = hash (contents query) ∧ contents entry.key = contents query

instance (entry : PointerEntry Ptr V) (query : Ptr) :
    Decidable (Matches hash contents entry query) :=
  inferInstanceAs (Decidable (_ ∧ _))

/-- The value of the first entry that matches. -/
def lookup : List (PointerEntry Ptr V) → Ptr → Option V
  | [], _ => none
  | entry :: table, query =>
      if Matches hash contents entry query then some entry.value else lookup table query

/-- Replace the value of the entry that matches, or add an entry. -/
def insert : List (PointerEntry Ptr V) → Ptr → V → List (PointerEntry Ptr V)
  | [], key, value => [⟨hash (contents key), key, value⟩]
  | entry :: table, key, value =>
      if Matches hash contents entry key then ⟨entry.hash, entry.key, value⟩ :: table
      else entry :: insert table key value

/-- All keys are at the address `p`. -/
def Aliased (table : List (PointerEntry Ptr V)) (p : Ptr) : Prop := ∀ entry ∈ table, entry.key = p

variable {hash contents} {table : List (PointerEntry Ptr V)} {p : Ptr}

omit [DecidableEq C] in
theorem matches_of_alias {entry : PointerEntry Ptr V} (h : entry.key = p) :
    Matches hash contents entry p ↔ entry.hash = hash (contents p) := by
  unfold Matches
  rw [h, and_iff_left rfl]

theorem lookup_cons_of_alias (entry : PointerEntry Ptr V) (h : entry.key = p) :
    lookup hash contents (entry :: table) p
      = if entry.hash = hash (contents p) then some entry.value
        else lookup hash contents table p := by
  rw [lookup]
  exact if_congr (matches_of_alias h) rfl rfl

theorem Aliased.tail {entry : PointerEntry Ptr V} (h : Aliased (entry :: table) p) :
    Aliased table p :=
  fun e he => h e (List.mem_cons_of_mem _ he)

theorem Aliased.insert (h : Aliased table p) (v : V) :
    Aliased (PointerTable.insert hash contents table p v) p := by
  induction table with
  | nil =>
      intro e he
      rw [List.mem_singleton.mp he]
  | cons entry table ih =>
      rw [PointerTable.insert]
      intro e he
      split at he
      · rcases List.mem_cons.mp he with rfl | he
        · exact h entry List.mem_cons_self
        · exact h.tail e he
      · rcases List.mem_cons.mp he with rfl | he
        · exact h e List.mem_cons_self
        · exact ih h.tail e he

/-- **One address makes a table by hash alone.** Whatever the address held when a value was
inserted and whatever it holds now, a lookup finds the last value that was inserted with the hash of
the query. -/
theorem lookup_insert_of_alias {now : Ptr → C} (h : Aliased table p) (v : V) :
    lookup hash now (insert hash contents table p v) p
      = if hash (contents p) = hash (now p) then some v else lookup hash now table p := by
  induction table with
  | nil => exact lookup_cons_of_alias _ rfl
  | cons entry table ih =>
      have hkey := h entry List.mem_cons_self
      rw [insert, lookup_cons_of_alias entry hkey]
      by_cases hsame : entry.hash = hash (contents p)
      · rw [if_pos ((matches_of_alias hkey).mpr hsame),
          lookup_cons_of_alias ⟨entry.hash, entry.key, v⟩ hkey, hsame]
        split
        · rfl
        · rfl
      · rw [if_neg fun hm => hsame ((matches_of_alias hkey).mp hm), lookup_cons_of_alias entry hkey,
          ih h.tail]
        by_cases hnow : entry.hash = hash (now p)
        · rw [if_pos hnow, if_pos hnow, if_neg fun heq => hsame (hnow.trans heq.symm)]
        · rw [if_neg hnow, if_neg hnow]

end PointerTable

end Lib
