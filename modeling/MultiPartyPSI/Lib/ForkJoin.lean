import MultiPartyPSI.Lib.Script
import Mathlib.Algebra.BigOperators.Fin

/-!
# Threads that are started and joined

A party of a network can do several things at once. A `Thread` is a program that, besides
sending and waiting, starts further threads and goes on when all of them have returned.
Threads of one party share its sockets, so what keeps them apart is that of two threads that
run at the same time only one uses a socket.

`Course` is the plan of a thread: what it gets and what it sends over every socket, under
all orders in which its parts may take their steps. `Course.send_inv`, `Course.recv_inv` and
`Course.join_inv` are what a step leaves of a course.
-/

namespace Lib

/-- A program for one party with sockets `S` and messages `M`, which returns an `R`. -/
inductive Thread (S M : Type) : Type → Type 1 where
  | ret {R : Type} (r : R) : Thread S M R
  | send {R : Type} (s : S) (m : M) (next : Thread S M R) : Thread S M R
  | recv {R : Type} (s : S) (next : M → Thread S M R) : Thread S M R
  | fork {B R : Type} (n : ℕ) (branches : Fin n → Thread S M B)
      (join : (Fin n → B) → Thread S M R) : Thread S M R

/-- What a step does. -/
inductive Deed (S M : Type) where
  | send (s : S) (m : M)
  | recv (s : S) (m : M)
  | join

section Programs

variable {S M R R' B : Type}

/-- One thread after the other. -/
def Thread.bind {R' : Type} : {R : Type} → Thread S M R → (R → Thread S M R') → Thread S M R'
  | _, .ret r, f => f r
  | _, .send s m th, f => .send s m (th.bind f)
  | _, .recv s next, f => .recv s fun m => (next m).bind f
  | _, .fork n branches join, f => .fork n branches fun v => (join v).bind f

/-- A program that starts no threads. -/
def Proc.thread : Proc S M R → Thread S M R
  | .ret r => .ret r
  | .send s m p => .send s m p.thread
  | .recv s next => .recv s fun m => (next m).thread

/-- Start a thread for each number below `n`, and wait for what they return. -/
def Thread.all (n : ℕ) (branches : Fin n → Thread S M B) : Thread S M (Fin n → B) :=
  .fork n branches .ret

/-- One step of one of the threads that are running. -/
inductive Thread.Step : {R : Type} → Thread S M R → Deed S M → Thread S M R → Prop where
  | send {R : Type} {s : S} {m : M} {th : Thread S M R} : Step (.send s m th) (.send s m) th
  | recv {R : Type} {s : S} {m : M} {next : M → Thread S M R} :
      Step (.recv s next) (.recv s m) (next m)
  | branch {B R : Type} {n : ℕ} {branches : Fin n → Thread S M B}
      {join : (Fin n → B) → Thread S M R} {i : Fin n} {d : Deed S M} {th : Thread S M B} :
      Step (branches i) d th →
      Step (.fork n branches join) d (.fork n (Function.update branches i th) join)
  | join {B R : Type} {n : ℕ} {branches : Fin n → Thread S M B}
      {join : (Fin n → B) → Thread S M R} {v : Fin n → B} :
      (∀ i, branches i = .ret (v i)) → Step (.fork n branches join) .join (join v)

/-- There is a step that waits for nothing. -/
def Thread.CanGo (th : Thread S M R) : Prop :=
  (∃ s m next, th.Step (.send s m) next) ∨ ∃ next, th.Step .join next

/-- There is a thread that takes whatever comes over `s`. -/
def Thread.Waits (th : Thread S M R) (s : S) : Prop := ∀ m, ∃ next, th.Step (.recv s m) next

theorem Thread.CanGo.branch {n : ℕ} {branches : Fin n → Thread S M B}
    {join : (Fin n → B) → Thread S M R} {i : Fin n} (h : (branches i).CanGo) :
    (Thread.fork n branches join).CanGo := by
  rcases h with ⟨s, m, next, h⟩ | ⟨next, h⟩
  · exact .inl ⟨s, m, _, .branch h⟩
  · exact .inr ⟨_, .branch h⟩

theorem Thread.Waits.branch {n : ℕ} {branches : Fin n → Thread S M B}
    {join : (Fin n → B) → Thread S M R} {i : Fin n} {s : S} (h : (branches i).Waits s) :
    (Thread.fork n branches join).Waits s := fun m => by
  obtain ⟨next, h⟩ := h m
  exact ⟨_, .branch h⟩

theorem Thread.not_step_ret {r : R} {d : Deed S M} {next : Thread S M R} :
    ¬ (Thread.ret r).Step d next := fun h => by cases h

end Programs

/-! ## Traffic of several threads -/

section Merge

variable {S M : Type} {n : ℕ}

/-- The traffic of threads that run side by side, and what is behind their join. -/
def Traffic.merge (f : Fin n → Traffic S M) (g : Traffic S M) : Traffic S M :=
  fun s => ((List.finRange n).flatMap fun i => f i s) ++ g s

/-- No socket is used by two of them. -/
def Traffic.Apart (f : Fin n → Traffic S M) : Prop :=
  ∀ i j s, i ≠ j → f i s = [] ∨ f j s = []

theorem flatMap_alone {α : Type*} {f : Fin n → List α} {i : Fin n} (h : ∀ j, j ≠ i → f j = []) :
    (List.finRange n).flatMap f = f i := by
  rw [← if_pos (c := i ∈ List.finRange n) (List.mem_finRange i) (t := f i) (e := []),
    ← flatMap_ite_eq (List.nodup_finRange n) i]
  refine List.flatMap_congr fun j _ => ?_
  split
  · rfl
  · next hj => exact h j (Ne.symm hj)

/-- Sockets that each belong to one of them. -/
theorem Traffic.Apart.of_owner {f : Fin n → Traffic S M} (owner : S → ℕ)
    (h : ∀ (i : Fin n) s, owner s ≠ i → f i s = []) : Apart f := by
  intro i j s hij
  by_cases hi : owner s = i
  · exact .inr (h j s fun hj => hij (Fin.ext (hi.symm.trans hj)))
  · exact .inl (h i s hi)

theorem Traffic.Apart.eq_nil {f : Fin n → Traffic S M} (h : Apart f) {i : Fin n} {s : S}
    (hi : f i s ≠ []) {j : Fin n} (hj : j ≠ i) : f j s = [] :=
  (h j i s hj).resolve_right hi

/-- A socket that is used by one thread carries its traffic. -/
theorem Traffic.Apart.merge_eq {f : Fin n → Traffic S M} (h : Apart f) {i : Fin n} {s : S}
    (hi : f i s ≠ []) (g : Traffic S M) : merge f g s = f i s ++ g s := by
  rw [merge, flatMap_alone fun j hj => h.eq_nil hi hj]

theorem Traffic.Apart.update {f : Fin n → Traffic S M} (h : Apart f) {i : Fin n}
    {g : Traffic S M} (hg : ∀ s, f i s = [] → g s = []) : Apart (Function.update f i g) := by
  have hle : ∀ j s, f j s = [] → Function.update f i g j s = [] := by
    intro j s hj
    by_cases hji : j = i
    · subst hji
      rw [Function.update_self]
      exact hg s hj
    · rw [Function.update_of_ne hji]
      exact hj
  intro j k s hjk
  exact (h j k s hjk).imp (hle j s) (hle k s)

/-- Where nothing was, nothing is left. -/
theorem Traffic.pop_nil [DecidableEq S] {o o' : Traffic S M} {s s' : S} {e : ℕ × M}
    (ho : o' = Function.update o s (e :: o s)) (h : o' s' = []) : o s' = [] := by
  rw [ho] at h
  by_cases hs : s' = s
  · subst hs
    rw [Function.update_self] at h
    cases h
  · rwa [Function.update_of_ne hs] at h

/-- What one thread takes from its traffic is taken from that of all. -/
theorem Traffic.Apart.merge_pop [DecidableEq S] {f : Fin n → Traffic S M} (h : Apart f)
    {i : Fin n} {s : S} {e : ℕ × M} {o : Traffic S M}
    (ho : f i = Function.update o s (e :: o s)) (g : Traffic S M) :
    merge f g = Function.update (merge (Function.update f i o) g) s
      (e :: merge (Function.update f i o) g s) := by
  have hne : f i s ≠ [] := by
    rw [ho, Function.update_self]
    exact List.cons_ne_nil _ _
  funext s'
  by_cases hs : s' = s
  · subst hs
    have hrest : merge (Function.update f i o) g s' = o s' ++ g s' := by
      rw [merge, flatMap_alone (i := i), Function.update_self]
      intro j hj
      rw [Function.update_of_ne hj]
      exact h.eq_nil hne hj
    rw [Function.update_self, h.merge_eq hne, hrest, ho, Function.update_self]
    rfl
  · rw [Function.update_of_ne hs]
    refine congrArg (· ++ g s') (List.flatMap_congr fun j _ => ?_)
    exact (Traffic.pop_ne ho fun hk => hs (congrArg Prod.snd hk)).symm

end Merge

/-! ## Courses -/

section Courses

variable {S M : Type} [DecidableEq S]

/-- From time `t` to time `t'`, in `k` steps, the thread gets exactly `inp`, sends exactly `out`
and returns `r`. What it waits for at some time has been sent before. -/
inductive Course : {R : Type} → ℕ → Thread S M R → (inp out : Traffic S M) → R → (t' k : ℕ) →
    Prop where
  | ret {R : Type} {t t' : ℕ} (r : R) : t ≤ t' →
      Course t (.ret r) (fun _ => []) (fun _ => []) r t' 0
  | send {R : Type} {t t₀ t' k : ℕ} {s : S} {m : M} {th : Thread S M R} {inp out : Traffic S M}
      {r : R} : t ≤ t₀ → Course t₀ th inp out r t' k →
      Course t (.send s m th) inp (Function.update out s ((t₀, m) :: out s)) r t' (k + 1)
  | recv {R : Type} {t t₀ t' τ k : ℕ} {s : S} {m : M} {next : M → Thread S M R}
      {inp out : Traffic S M} {r : R} : t ≤ t₀ → τ < t₀ → Course t₀ (next m) inp out r t' k →
      Course t (.recv s next) (Function.update inp s ((τ, m) :: inp s)) out r t' (k + 1)
  | fork {B R : Type} {t t' t'' n k' : ℕ} {branches : Fin n → Thread S M B}
      {join : (Fin n → B) → Thread S M R} {inp out : Fin n → Traffic S M} {v : Fin n → B}
      {k : Fin n → ℕ} {inp' out' : Traffic S M} {r : R} :
      t ≤ t' → (∀ i, Course t (branches i) (inp i) (out i) (v i) t' (k i)) →
      Traffic.Apart inp → Traffic.Apart out → Course t' (join v) inp' out' r t'' k' →
      Course t (.fork n branches join) (Traffic.merge inp inp') (Traffic.merge out out') r t''
        (∑ i, k i + k' + 1)

variable {R R' B : Type} {t t' t'' k k' n : ℕ} {th : Thread S M R} {inp out inp' out' : Traffic S M}
variable {r : R} {r' : R'}

theorem Course.le (h : Course t th inp out r t' k) : t ≤ t' := by
  induction h with
  | ret r hle => exact hle
  | send hle _ ih => exact hle.trans ih
  | recv hle _ _ ih => exact hle.trans ih
  | fork hle _ _ _ _ _ ih => exact hle.trans ih

theorem Course.mono {u : ℕ} (hu : u ≤ t) (h : Course t th inp out r t' k) :
    Course u th inp out r t' k := by
  induction h with
  | ret r hle => exact .ret r (hu.trans hle)
  | send hle hp => exact .send (hu.trans hle) hp
  | recv hle hτ hp => exact .recv (hu.trans hle) hτ hp
  | fork hle _ hin hout hjoin ih => exact .fork (hu.trans hle) (fun i => ih i hu) hin hout hjoin

/-- Traffic may be rewritten. -/
theorem Course.congr (h : Course t th inp out r t' k) (hi : ∀ s, inp s = inp' s)
    (ho : ∀ s, out s = out' s) : Course t th inp' out' r t' k := by
  rw [← show inp = inp' from funext hi, ← show out = out' from funext ho]
  exact h

theorem Course.ret_inv {r₀ : R} (h : Course t (.ret r₀) inp out r t' k) :
    inp = (fun _ => []) ∧ out = (fun _ => []) ∧ r₀ = r ∧ k = 0 := by
  cases h
  exact ⟨rfl, rfl, rfl, rfl⟩

/-- Nothing is sent before its time. -/
theorem Course.le_time (h : Course t th inp out r t' k) {s : S} {e : ℕ × M} (he : e ∈ out s) :
    t ≤ e.1 := by
  induction h with
  | ret r hle => cases he
  | @send R t t₀ t' k s' m th inp out r hle hp ih =>
      by_cases hs : s = s'
      · subst hs
        rw [Function.update_self] at he
        rcases List.mem_cons.mp he with rfl | he
        · exact hle
        · exact hle.trans (ih he)
      · rw [Function.update_of_ne hs] at he
        exact hle.trans (ih he)
  | recv hle hτ hp ih => exact hle.trans (ih he)
  | fork hle _ _ _ _ ih ihjoin =>
      rcases List.mem_append.mp he with he | he
      · obtain ⟨i, -, he⟩ := List.mem_flatMap.mp he
        exact ih i he
      · exact hle.trans (ihjoin he)

/-- One thread after the other: their traffic is appended. -/
theorem Course.bind {f : R → Thread S M R'} (h : Course t th inp out r t' k)
    (h' : Course t' (f r) inp' out' r' t'' k') :
    Course t (th.bind f) (fun s => inp s ++ inp' s) (fun s => out s ++ out' s) r' t''
      (k + k') := by
  induction h with
  | ret r hle =>
      rw [Nat.zero_add]
      exact h'.mono hle
  | @send R t t₀ t' k s m th inp out r hle hp ih =>
      rw [Nat.add_right_comm]
      refine (Course.send hle (ih h')).congr (fun _ => rfl) fun q => ?_
      by_cases hq : q = s
      · subst hq
        rw [Function.update_self, Function.update_self, List.cons_append]
      · rw [Function.update_of_ne hq, Function.update_of_ne hq]
  | @recv R t t₀ t' τ k s m next inp out r hle hτ hp ih =>
      rw [Nat.add_right_comm]
      refine (Course.recv hle hτ (ih h')).congr (fun q => ?_) fun _ => rfl
      by_cases hq : q = s
      · subst hq
        rw [Function.update_self, Function.update_self, List.cons_append]
      · rw [Function.update_of_ne hq, Function.update_of_ne hq]
  | @fork B R t t' t'' n kj branches join inp out v k inp' out' r hle hb hin hout hjoin _ ih =>
      rw [Nat.add_right_comm, Nat.add_assoc (∑ i, k i)]
      exact (Course.fork hle hb hin hout (ih h')).congr (fun s => (List.append_assoc _ _ _).symm)
        fun s => (List.append_assoc _ _ _).symm

/-- A program that starts no threads keeps to its plan. -/
theorem Plan.course {p : Proc S M R} (h : Plan t p inp out r t') :
    ∃ k, Course t p.thread inp out r t' k := by
  induction h with
  | ret r hle => exact ⟨0, .ret r hle⟩
  | send hle _ ih =>
      obtain ⟨k, ih⟩ := ih
      exact ⟨k + 1, .send hle ih⟩
  | recv hle hτ _ ih =>
      obtain ⟨k, ih⟩ := ih
      exact ⟨k + 1, .recv hle hτ ih⟩

/-- Threads that run side by side, over sockets of their own. -/
theorem Course.all {branches : Fin n → Thread S M B} {inp out : Fin n → Traffic S M}
    {v : Fin n → B} (hle : t ≤ t')
    (h : ∀ i, ∃ k, Course t (branches i) (inp i) (out i) (v i) t' k)
    (hin : Traffic.Apart inp) (hout : Traffic.Apart out) :
    ∃ k, Course t (Thread.all n branches) (fun s => (List.finRange n).flatMap fun i => inp i s)
      (fun s => (List.finRange n).flatMap fun i => out i s) v t' k := by
  choose k hk using h
  exact ⟨_, (Course.fork hle hk hin hout (.ret v le_rfl)).congr (fun s => List.append_nil _)
    fun s => List.append_nil _⟩

/-- Something is computed in the end. -/
theorem Course.map (f : R → R') (h : Course t th inp out r t' k) :
    Course t (th.bind fun r => .ret (f r)) inp out (f r) t' k :=
  (Course.bind (f := fun r => .ret (f r)) h (.ret (f r) le_rfl)).congr
    (fun _ => List.append_nil _) fun _ => List.append_nil _

/-! ## What a step leaves of a course -/

section Steps

theorem sum_update_add_one {f : Fin n → ℕ} {i : Fin n} {x : ℕ} (h : f i = x + 1) :
    ∑ j, f j = ∑ j, Function.update f i x j + 1 := by
  have hi : i ∈ Finset.univ := Finset.mem_univ i
  rw [Finset.sum_update_of_mem hi, ← Finset.add_sum_erase _ _ hi, h, Finset.erase_eq]
  omega

/-- Another course for one of the threads. -/
theorem Course.update_branch {branches : Fin n → Thread S M B} {inp out : Fin n → Traffic S M}
    {v : Fin n → B} {k : Fin n → ℕ} {i : Fin n} {th : Thread S M B} {inp' out' : Traffic S M}
    (h : ∀ j, Course t (branches j) (inp j) (out j) (v j) t' (k j))
    (hi : Course t th inp' out' (v i) t' k') (j : Fin n) :
    Course t (Function.update branches i th j) (Function.update inp i inp' j)
      (Function.update out i out' j) (v j) t' (Function.update k i k' j) := by
  by_cases hj : j = i
  · subst hj
    simp only [Function.update_self]
    exact hi
  · simp only [Function.update_of_ne hj]
    exact h j

/-- What is sent is the first item over its socket. -/
theorem Course.send_inv {s : S} {m : M} {next : Thread S M R} (h : Course t th inp out r t' k)
    (hs : th.Step (.send s m) next) :
    ∃ τ o k', k = k' + 1 ∧ out = Function.update o s ((τ, m) :: o s) ∧
      Course t next inp o r t' k' := by
  generalize hd : Deed.send s m = d at hs
  induction hs generalizing t t' k inp out with
  | send =>
      cases hd
      cases h with
      | send hle hp => exact ⟨_, _, _, rfl, rfl, hp.mono hle⟩
  | recv => cases hd
  | join => cases hd
  | @branch B R n branches join i d th _ ih =>
      cases h with
      | @fork _ _ _ t₁ _ _ k₁ _ _ inps outs v ks inp' out' _ hle hb hin hout hjoin =>
          obtain ⟨τ, o, k', hk, ho, hnext⟩ := ih (hb i) hd
          refine ⟨τ, Traffic.merge (Function.update outs i o) out',
            ∑ j, Function.update ks i k' j + k₁ + 1, ?_, hout.merge_pop ho out', ?_⟩
          · rw [sum_update_add_one hk]
            omega
          · have hbranches := Course.update_branch hb hnext
            rw [Function.update_eq_self] at hbranches
            exact .fork hle hbranches hin (hout.update fun s' hnil => Traffic.pop_nil ho hnil) hjoin

/-- What is taken is the first item over its socket. -/
theorem Course.recv_inv {s : S} {m : M} {next : Thread S M R} (h : Course t th inp out r t' k)
    (hs : th.Step (.recv s m) next) :
    ∃ τ m₀ i k', k = k' + 1 ∧ inp = Function.update i s ((τ, m₀) :: i s) ∧
      (m = m₀ → Course t next i out r t' k') := by
  generalize hd : Deed.recv s m = d at hs
  induction hs generalizing t t' k inp out with
  | send => cases hd
  | recv =>
      cases hd
      cases h with
      | recv hle hτ hp => exact ⟨_, _, _, _, rfl, rfl, fun hm => by rw [hm]; exact hp.mono hle⟩
  | join => cases hd
  | @branch B R n branches join i d th _ ih =>
      cases h with
      | @fork _ _ _ t₁ _ _ k₁ _ _ inps outs v ks inp' out' _ hle hb hin hout hjoin =>
          obtain ⟨τ, m₀, o, k', hk, ho, hnext⟩ := ih (hb i) hd
          refine ⟨τ, m₀, Traffic.merge (Function.update inps i o) inp',
            ∑ j, Function.update ks i k' j + k₁ + 1, ?_, hin.merge_pop ho inp', fun hm => ?_⟩
          · rw [sum_update_add_one hk]
            omega
          · have hbranches := Course.update_branch hb (hnext hm)
            rw [Function.update_eq_self] at hbranches
            exact .fork hle hbranches (hin.update fun s' hnil => Traffic.pop_nil ho hnil) hout hjoin

/-- A join is no traffic. -/
theorem Course.join_inv {next : Thread S M R} (h : Course t th inp out r t' k)
    (hs : th.Step .join next) : ∃ k', k = k' + 1 ∧ Course t next inp out r t' k' := by
  generalize hd : Deed.join = d at hs
  induction hs generalizing t t' k inp out with
  | send => cases hd
  | recv => cases hd
  | @join B R n branches join v₀ hret =>
      cases h with
      | @fork _ _ _ t₁ _ _ k₁ _ _ inps outs v ks inp' out' _ hle hb hin hout hjoin =>
          -- all threads have returned, so nothing is left of their traffic
          have hnil : ∀ i, inps i = (fun _ => []) ∧ outs i = (fun _ => []) ∧ v₀ i = v i ∧
              ks i = 0 := fun i => by
            have := hb i
            rw [hret i] at this
            exact this.ret_inv
          have hv : v₀ = v := funext fun i => (hnil i).2.2.1
          have hks : ∑ i, ks i = 0 := Finset.sum_eq_zero fun i _ => (hnil i).2.2.2
          refine ⟨k₁, by rw [hks]; omega, ?_⟩
          rw [hv]
          refine (hjoin.mono hle).congr (fun s => ?_) fun s => ?_
          · rw [Traffic.merge, List.flatMap_eq_nil_iff.mpr fun i _ => by rw [(hnil i).1]]
            rfl
          · rw [Traffic.merge, List.flatMap_eq_nil_iff.mpr fun i _ => by rw [(hnil i).2.1]]
            rfl
  | @branch B R n branches join i d th _ ih =>
      cases h with
      | @fork _ _ _ t₁ _ _ k₁ _ _ inps outs v ks inp' out' _ hle hb hin hout hjoin =>
          obtain ⟨k', hk, hnext⟩ := ih (hb i) hd
          refine ⟨∑ j, Function.update ks i k' j + k₁ + 1, ?_, ?_⟩
          · rw [sum_update_add_one hk]
            omega
          · have hbranches := Course.update_branch hb hnext
            rw [Function.update_eq_self, Function.update_eq_self] at hbranches
            exact .fork hle hbranches hin hout hjoin

/-- The next step of a thread that has not returned waits for nothing, or for something that is
stamped before the end. -/
theorem Course.exists_next (h : Course t th inp out r t' k) :
    (∃ r₀, th = .ret r₀) ∨ th.CanGo ∨
      ∃ s τ m l, th.Waits s ∧ inp s = (τ, m) :: l ∧ τ < t' := by
  induction h with
  | ret r hle => exact .inl ⟨r, rfl⟩
  | send hle hp _ => exact .inr (.inl (.inl ⟨_, _, _, .send⟩))
  | recv hle hτ hp _ =>
      exact .inr (.inr ⟨_, _, _, _, fun _ => ⟨_, .recv⟩, Function.update_self _ _ _,
        hτ.trans_le hp.le⟩)
  | @fork B R t t' t'' n k' branches join inp out v k inp' out' r hle hb hin hout hjoin ih _ =>
      by_cases hall : ∀ i, ∃ r₀, branches i = .ret r₀
      · choose v₀ hv₀ using hall
        exact .inr (.inl (.inr ⟨_, .join hv₀⟩))
      · obtain ⟨i, hi⟩ := not_forall.mp hall
        rcases (ih i).resolve_left hi with hgo | ⟨s, τ, m, l, hwaits, hhead, hτ⟩
        · exact .inr (.inl hgo.branch)
        · refine .inr (.inr ⟨s, τ, m, l ++ inp' s, hwaits.branch, ?_, hτ.trans_le hjoin.le⟩)
          rw [hin.merge_eq (by rw [hhead]; exact List.cons_ne_nil _ _), hhead]
          rfl

/-- Before something is sent, there is a step that waits for nothing, or for something that is
stamped earlier. -/
theorem Course.exists_before (h : Course t th inp out r t' k) {s : S} {e : ℕ × M}
    (he : e ∈ out s) :
    th.CanGo ∨ ∃ s τ m l, th.Waits s ∧ inp s = (τ, m) :: l ∧ τ < e.1 := by
  induction h with
  | ret r hle => cases he
  | send hle hp _ => exact .inl (.inl ⟨_, _, _, .send⟩)
  | recv hle hτ hp _ =>
      exact .inr ⟨_, _, _, _, fun _ => ⟨_, .recv⟩, Function.update_self _ _ _,
        hτ.trans_le (hp.le_time he)⟩
  | @fork B R t t' t'' n k' branches join inp out v k inp' out' r hle hb hin hout hjoin ih _ =>
      have hbranch : ∀ i, ((branches i).CanGo ∨ ∃ s τ m l, (branches i).Waits s ∧
          inp i s = (τ, m) :: l ∧ τ < e.1) → (Thread.fork n branches join).CanGo ∨
            ∃ s τ m l, (Thread.fork n branches join).Waits s ∧
              Traffic.merge inp inp' s = (τ, m) :: l ∧ τ < e.1 := by
        intro i hi
        rcases hi with hgo | ⟨s, τ, m, l, hwaits, hhead, hτ⟩
        · exact .inl hgo.branch
        · refine .inr ⟨s, τ, m, l ++ inp' s, hwaits.branch, ?_, hτ⟩
          rw [hin.merge_eq (by rw [hhead]; exact List.cons_ne_nil _ _), hhead]
          rfl
      rcases List.mem_append.mp he with he | he
      · obtain ⟨i, -, he⟩ := List.mem_flatMap.mp he
        exact hbranch i (ih i he)
      · -- it is sent behind the join, so one that has not returned comes first
        by_cases hall : ∀ i, ∃ r₀, branches i = .ret r₀
        · choose v₀ hv₀ using hall
          exact .inl (.inr ⟨_, .join hv₀⟩)
        · obtain ⟨i, hi⟩ := not_forall.mp hall
          refine hbranch i (((hb i).exists_next.resolve_left hi).imp_right ?_)
          rintro ⟨s, τ, m, l, hwaits, hhead, hτ⟩
          exact ⟨s, τ, m, l, hwaits, hhead, hτ.trans_le (hjoin.le_time he)⟩

end Steps

end Courses

end Lib
