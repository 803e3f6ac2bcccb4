import MultiPartyPSI.Lib.ForkJoin

/-!
# Networks of parties with threads

Every party runs a thread, and every socket of a party is connected to a socket of another.
Each direction of a connection is a FIFO channel that belongs to the socket that is sent
over. A step lets one of the running threads of one party go on.

A `Scenario` has a course for every party such that what one sends over a socket is what
the other gets over the socket it is connected to. Every run keeps to it (`Follows`), and so
no run is stuck, none goes on forever, and all return what the scenario says.
-/

namespace Lib

variable {P S M R : Type} [DecidableEq P] [DecidableEq S]

/-- What is left of the parties' programs, and what is in flight from each socket. -/
structure Conf (P S M R : Type) where
  loc : P → Thread S M R
  chan : P × S → List M

namespace Conf

/-- Party `p` goes on in `th`, having left channel `e` with `l`. -/
def put (c : Conf P S M R) (p : P) (th : Thread S M R) (e : P × S) (l : List M) : Conf P S M R :=
  ⟨Function.update c.loc p th, Function.update c.chan e l⟩

@[simp] theorem put_chan_self (c : Conf P S M R) (p : P) (th : Thread S M R) (e : P × S)
    (l : List M) : (c.put p th e l).chan e = l := Function.update_self _ _ _

theorem put_chan_ne (c : Conf P S M R) (p : P) (th : Thread S M R) {e e' : P × S} (l : List M)
    (h : e' ≠ e) : (c.put p th e l).chan e' = c.chan e' := Function.update_of_ne h _ _

/-- One step of one thread. `peer` says how sockets are connected, `room` at which lengths a
channel takes a message more. -/
inductive Step (peer : P × S → P × S) (room : ℕ → Prop) : Conf P S M R → Conf P S M R → Prop where
  | send {c : Conf P S M R} {p : P} {s : S} {m : M} {th : Thread S M R} :
      (c.loc p).Step (.send s m) th → room (c.chan (p, s)).length →
      Step peer room c (c.put p th (p, s) (c.chan (p, s) ++ [m]))
  | recv {c : Conf P S M R} {p : P} {s : S} {m : M} {l : List M} {th : Thread S M R} :
      (c.loc p).Step (.recv s m) th → c.chan (peer (p, s)) = m :: l →
      Step peer room c (c.put p th (peer (p, s)) l)
  | join {c : Conf P S M R} {p : P} {th : Thread S M R} :
      (c.loc p).Step .join th → Step peer room c ⟨Function.update c.loc p th, c.chan⟩

/-- All states that some order of steps leads to. -/
def Reachable (peer : P × S → P × S) (room : ℕ → Prop) (init c : Conf P S M R) : Prop :=
  Relation.ReflTransGen (Step peer room) init c

/-- Party `p` has returned. -/
def Finished (c : Conf P S M R) (p : P) : Prop := ∃ r, c.loc p = .ret r

end Conf

/-- Programs for all parties, with courses that fit together. -/
structure Scenario (P S M R : Type) [DecidableEq P] [DecidableEq S] where
  prog : P → Thread S M R
  peer : P × S → P × S
  peer_peer : ∀ e, peer (peer e) = e
  /-- What is sent from a socket. -/
  stream : P × S → List (ℕ × M)
  result : P → R
  course : ∀ p, ∃ t t' k, Course t (prog p) (fun s => stream (peer (p, s)))
    (fun s => stream (p, s)) (result p) t' k
  /-- Those who do anything. -/
  parties : Finset P
  idle : ∀ p ∉ parties, ∃ r, prog p = .ret r

namespace Scenario

variable (T : Scenario P S M R)

/-- Everyone at the start of their program. -/
def init : Conf P S M R := ⟨T.prog, fun _ => []⟩

/-- The parties have `inp` and `out` still to come, in `left` steps. -/
structure Follows (c : Conf P S M R) (inp out : P → Traffic S M) (left : P → ℕ) : Prop where
  course : ∀ p, ∃ t t', Course t (c.loc p) (inp p) (out p) (T.result p) t' (left p)
  flight : ∀ p s, ∃ fl, c.chan (p, s) = fl.map Prod.snd ∧
    fl ++ out p s = inp (T.peer (p, s)).1 (T.peer (p, s)).2
  short : ∀ p s, (inp p s).length ≤ (T.stream (T.peer (p, s))).length
  idle : ∀ p ∉ T.parties, c.Finished p

section Steps

variable {T} {c : Conf P S M R} {inp out : P → Traffic S M} {left : P → ℕ}

theorem exists_start : ∃ left, T.Follows T.init (fun p s => T.stream (T.peer (p, s)))
    (fun p s => T.stream (p, s)) left := by
  choose t t' left h using T.course
  refine ⟨left, fun p => ⟨t p, t' p, h p⟩, fun p s => ⟨[], rfl, ?_⟩, fun p s => le_rfl, T.idle⟩
  rw [T.peer_peer]
  rfl

/-- Who takes a step is one of the parties. -/
theorem Follows.mem_parties (h : T.Follows c inp out left) {p : P} {d : Deed S M}
    {th : Thread S M R} (hs : (c.loc p).Step d th) : p ∈ T.parties := by
  by_contra hp
  obtain ⟨r, hr⟩ := h.idle p hp
  rw [hr] at hs
  exact Thread.not_step_ret hs

/-- One step less for one party. -/
theorem sum_left_lt {p : P} {k : ℕ} (hp : p ∈ T.parties) (hk : left p = k + 1) :
    ∑ q ∈ T.parties, Function.update left p k q < ∑ q ∈ T.parties, left q := by
  refine Finset.sum_lt_sum (fun q _ => ?_) ⟨p, hp, ?_⟩
  · by_cases hq : q = p
    · subst hq
      rw [Function.update_self, hk]
      exact Nat.le_succ k
    · rw [Function.update_of_ne hq]
  · rw [Function.update_self, hk]
    exact Nat.lt_succ_self k

theorem Follows.idle_update (h : T.Follows c inp out left) {p : P} (hp : p ∈ T.parties)
    (th : Thread S M R) {q : P} (hq : q ∉ T.parties) :
    ∃ r, Function.update c.loc p th q = .ret r := by
  rw [Function.update_of_ne fun he => hq (by rwa [he])]
  exact h.idle q hq

theorem Follows.course_update (h : T.Follows c inp out left) {p : P} {th : Thread S M R}
    {i o : Traffic S M} {k : ℕ} (hp : ∃ t t', Course t th i o (T.result p) t' k) (q : P) :
    ∃ t t', Course t (Function.update c.loc p th q) (Function.update inp p i q)
      (Function.update out p o q) (T.result q) t' (Function.update left p k q) := by
  by_cases hq : q = p
  · subst hq
    simp only [Function.update_self]
    exact hp
  · simp only [Function.update_of_ne hq]
    exact h.course q

theorem Follows.send (h : T.Follows c inp out left) {p : P} {s : S} {m : M} {th : Thread S M R}
    (hs : (c.loc p).Step (.send s m) th) :
    ∃ out' k, left p = k + 1 ∧
      T.Follows (c.put p th (p, s) (c.chan (p, s) ++ [m])) inp out' (Function.update left p k) := by
  obtain ⟨t, t', hcourse⟩ := h.course p
  -- the first item of the socket is the one that is sent
  obtain ⟨τ, o, k, hk, ho, hnext⟩ := hcourse.send_inv hs
  have hhead := Traffic.pop_self ho
  have hcourses := h.course_update ⟨t, t', hnext⟩
  rw [Function.update_eq_self] at hcourses
  refine ⟨Function.update out p o, k, hk, hcourses, fun p' s' => ?_, h.short,
    fun q => h.idle_update (h.mem_parties hs) th⟩
  obtain ⟨fl, hfl, hin⟩ := h.flight p' s'
  by_cases he : (p', s') = (p, s)
  · cases he
    -- it moves from what is to be sent to the end of what is in flight
    refine ⟨fl ++ [(τ, m)], ?_, ?_⟩
    · rw [Conf.put_chan_self, hfl, List.map_append]
      rfl
    · rw [← hin, hhead, List.append_assoc]
      rfl
  · refine ⟨fl, ?_, ?_⟩
    · rw [Conf.put_chan_ne _ _ _ _ he]
      exact hfl
    · rw [← hin, Traffic.pop_ne ho he]

theorem Follows.recv (h : T.Follows c inp out left) {p : P} {s : S} {m : M} {l : List M}
    {th : Thread S M R} (hs : (c.loc p).Step (.recv s m) th)
    (hm : c.chan (T.peer (p, s)) = m :: l) :
    ∃ inp' k, left p = k + 1 ∧
      T.Follows (c.put p th (T.peer (p, s)) l) inp' out (Function.update left p k) := by
  obtain ⟨t, t', hcourse⟩ := h.course p
  obtain ⟨τ, m₀, i, k, hk, hi, hnext⟩ := hcourse.recv_inv hs
  have hhead := Traffic.pop_self hi
  -- what is first in flight is what is expected first
  obtain ⟨fl, hfl, hin⟩ := h.flight (T.peer (p, s)).1 (T.peer (p, s)).2
  rw [Prod.mk.eta, T.peer_peer] at hin
  rw [Prod.mk.eta, hm] at hfl
  obtain ⟨e, fl, rfl⟩ : ∃ e fl', fl = e :: fl' := by
    cases fl with
    | nil => cases hfl
    | cons e fl' => exact ⟨e, fl', rfl⟩
  dsimp only at hin
  rw [hhead, List.cons_append] at hin
  obtain ⟨rfl, hrest⟩ := List.cons.inj hin
  obtain ⟨rfl, rfl⟩ := List.cons.inj hfl
  have hcourses := h.course_update ⟨t, t', hnext rfl⟩
  rw [Function.update_eq_self] at hcourses
  refine ⟨Function.update inp p i, k, hk, hcourses, fun p' s' => ?_, fun p' s' => ?_,
    fun q => h.idle_update (h.mem_parties hs) th⟩
  · by_cases he : (p', s') = T.peer (p, s)
    · refine ⟨fl, ?_, ?_⟩
      · rw [he, Conf.put_chan_self]
      · rw [he, T.peer_peer]
        have : out p' s' = out (T.peer (p, s)).1 (T.peer (p, s)).2 := by rw [← he]
        rw [this]
        exact hrest
    · obtain ⟨fl', hfl', hin'⟩ := h.flight p' s'
      refine ⟨fl', ?_, ?_⟩
      · rw [Conf.put_chan_ne _ _ _ _ he]
        exact hfl'
      · rw [hin', Traffic.pop_ne hi fun hp => he ?_]
        rw [← T.peer_peer (p', s'), ← Prod.mk.eta (p := T.peer (p', s')), hp]
  · exact (Traffic.length_pop_le hi p' s').trans (h.short p' s')

theorem Follows.join (h : T.Follows c inp out left) {p : P} {th : Thread S M R}
    (hs : (c.loc p).Step .join th) :
    ∃ k, left p = k + 1 ∧
      T.Follows ⟨Function.update c.loc p th, c.chan⟩ inp out (Function.update left p k) := by
  obtain ⟨t, t', hcourse⟩ := h.course p
  obtain ⟨k, hk, hnext⟩ := hcourse.join_inv hs
  have hcourses := h.course_update ⟨t, t', hnext⟩
  rw [Function.update_eq_self, Function.update_eq_self] at hcourses
  exact ⟨k, hk, hcourses, h.flight, h.short, fun q => h.idle_update (h.mem_parties hs) th⟩

/-- Every step is one of the scenario, and leaves less to come. -/
theorem follows_of_step {room : ℕ → Prop} {c' : Conf P S M R} (h : T.Follows c inp out left)
    (hs : Conf.Step T.peer room c c') :
    ∃ inp' out' left', T.Follows c' inp' out' left' ∧
      ∑ q ∈ T.parties, left' q < ∑ q ∈ T.parties, left q := by
  cases hs with
  | send hp _ =>
      obtain ⟨out', k, hk, hf⟩ := h.send hp
      exact ⟨_, _, _, hf, sum_left_lt (h.mem_parties hp) hk⟩
  | recv hp hm =>
      obtain ⟨inp', k, hk, hf⟩ := h.recv hp hm
      exact ⟨_, _, _, hf, sum_left_lt (h.mem_parties hp) hk⟩
  | join hp =>
      obtain ⟨k, hk, hf⟩ := h.join hp
      exact ⟨_, _, _, hf, sum_left_lt (h.mem_parties hp) hk⟩

variable (T) in
theorem follows_of_reachable {room : ℕ → Prop} (h : Conf.Reachable T.peer room T.init c) :
    ∃ inp out left, T.Follows c inp out left := by
  induction h with
  | refl =>
      obtain ⟨left, h⟩ := T.exists_start
      exact ⟨_, _, left, h⟩
  | tail _ hstep ih =>
      obtain ⟨inp, out, left, hf⟩ := ih
      obtain ⟨inp', out', left', hf', -⟩ := follows_of_step hf hstep
      exact ⟨inp', out', left', hf'⟩

/-- What is to be sent is not yet in flight: the channel holds less than the whole stream. -/
theorem Follows.length_chan_lt (h : T.Follows c inp out left) {p : P} {s : S} {m : M}
    {th : Thread S M R} (hs : (c.loc p).Step (.send s m) th) :
    (c.chan (p, s)).length < (T.stream (p, s)).length := by
  obtain ⟨fl, hfl, hflight⟩ := h.flight p s
  obtain ⟨t, t', hcourse⟩ := h.course p
  obtain ⟨τ, o, k, -, ho, -⟩ := hcourse.send_inv hs
  have hle := h.short (T.peer (p, s)).1 (T.peer (p, s)).2
  rw [Prod.mk.eta, T.peer_peer, ← hflight, ho, Function.update_self, List.length_append,
    List.length_cons] at hle
  rw [hfl, List.length_map]
  omega

/-- A party that can go on can take a step. -/
theorem Follows.exists_step_of_canGo {room : ℕ → Prop} (h : T.Follows c inp out left)
    (hroom : ∀ e k, k < (T.stream e).length → room k) {p : P} (hp : (c.loc p).CanGo) :
    ∃ c', Conf.Step T.peer room c c' := by
  rcases hp with ⟨s, m, th, hs⟩ | ⟨th, hs⟩
  · exact ⟨_, .send hs (hroom (p, s) _ (h.length_chan_lt hs))⟩
  · exact ⟨_, .join hs⟩

/-- While a thread waits for something stamped `τ`, it or another one can go on. -/
theorem Follows.exists_step_of_waits {room : ℕ → Prop} (h : T.Follows c inp out left)
    (hroom : ∀ e k, k < (T.stream e).length → room k) (τ : ℕ) :
    ∀ {p : P} {s : S} {m : M} {l : List (ℕ × M)}, (c.loc p).Waits s → inp p s = (τ, m) :: l →
      ∃ c', Conf.Step T.peer room c c' := by
  induction τ using Nat.strong_induction_on with
  | _ τ ih =>
      intro p s m l hp hin
      obtain ⟨fl, hfl, hflight⟩ := h.flight (T.peer (p, s)).1 (T.peer (p, s)).2
      rw [Prod.mk.eta, T.peer_peer] at hflight
      rw [Prod.mk.eta] at hfl
      cases fl with
      | cons e fl =>
          obtain ⟨th, hs⟩ := hp e.2
          exact ⟨_, .recv hs hfl⟩
      | nil =>
          -- the other party has it still to send, and does something earlier
          rw [List.nil_append] at hflight
          obtain ⟨t, t', hcourse⟩ := h.course (T.peer (p, s)).1
          have hmem : (τ, m) ∈ out (T.peer (p, s)).1 (T.peer (p, s)).2 := by
            rw [hflight]
            dsimp only
            rw [hin]
            exact List.mem_cons_self
          rcases hcourse.exists_before hmem with hgo | ⟨s', τ', m', l', hwaits, hhead, hτ⟩
          · exact h.exists_step_of_canGo hroom hgo
          · exact ih τ' hτ hwaits hhead

/-- **Progress**: while someone has not returned, someone can go on. -/
theorem Follows.exists_step {room : ℕ → Prop} (h : T.Follows c inp out left)
    (hroom : ∀ e k, k < (T.stream e).length → room k) {p : P} (hp : ¬ c.Finished p) :
    ∃ c', Conf.Step T.peer room c c' := by
  obtain ⟨t, t', hcourse⟩ := h.course p
  rcases hcourse.exists_next.resolve_left hp with hgo | ⟨s, τ, m, l, hwaits, hhead, -⟩
  · exact h.exists_step_of_canGo hroom hgo
  · exact h.exists_step_of_waits hroom τ hwaits hhead

end Steps

section Results

variable {T} {room : ℕ → Prop} {c : Conf P S M R}

/-- **What is returned** is what the scenario says. -/
theorem eq_result (h : Conf.Reachable T.peer room T.init c) {p : P} {r : R}
    (hp : c.loc p = .ret r) : r = T.result p := by
  obtain ⟨inp, out, left, hf⟩ := T.follows_of_reachable h
  obtain ⟨t, t', hcourse⟩ := hf.course p
  rw [hp] at hcourse
  exact hcourse.ret_inv.2.2.1

/-- **Progress** in every reachable state, where every channel takes its whole stream. -/
theorem exists_step (h : Conf.Reachable T.peer room T.init c)
    (hroom : ∀ e k, k < (T.stream e).length → room k) {p : P} (hp : ¬ c.Finished p) :
    ∃ c', Conf.Step T.peer room c c' := by
  obtain ⟨inp, out, left, hf⟩ := T.follows_of_reachable h
  exact hf.exists_step hroom hp

/-- **No run goes on forever.** -/
theorem no_infinite_run {run : ℕ → Conf P S M R} (h : Conf.Reachable T.peer room T.init (run 0)) :
    ¬ ∀ k, Conf.Step T.peer room (run k) (run (k + 1)) := by
  intro hstep
  obtain ⟨inp, out, start, hstart⟩ := T.follows_of_reachable h
  have hleft : ∀ k, ∃ inp out left, T.Follows (run k) inp out left ∧
      ∑ q ∈ T.parties, left q + k ≤ ∑ q ∈ T.parties, start q := by
    intro k
    induction k with
    | zero => exact ⟨_, _, _, hstart, le_rfl⟩
    | succ k ih =>
        obtain ⟨inp, out, left, hf, hle⟩ := ih
        obtain ⟨inp', out', left', hf', hlt⟩ := follows_of_step hf (hstep k)
        exact ⟨inp', out', left', hf', by omega⟩
  obtain ⟨_, _, _, _, hle⟩ := hleft (∑ q ∈ T.parties, start q + 1)
  omega

/-- Every run can be continued until no step is left. -/
theorem exists_last (h : Conf.Reachable T.peer room T.init c) :
    ∃ c', Conf.Reachable T.peer room c c' ∧ ∀ c'', ¬ Conf.Step T.peer room c' c'' := by
  obtain ⟨inp, out, left, hf⟩ := T.follows_of_reachable h
  clear h
  induction hk : ∑ q ∈ T.parties, left q using Nat.strong_induction_on
    generalizing c inp out left with
  | _ k ih =>
      by_cases hlast : ∃ c', Conf.Step T.peer room c c'
      · obtain ⟨c', hstep⟩ := hlast
        obtain ⟨inp', out', left', hf', hlt⟩ := follows_of_step hf hstep
        obtain ⟨c'', hreach, hno⟩ := ih _ (hk ▸ hlt) inp' out' left' hf' rfl
        exact ⟨c'', .head hstep hreach, hno⟩
      · exact ⟨c, .refl, fun c' hstep => hlast ⟨c', hstep⟩⟩

/-- Where every channel takes its whole stream, every run can be continued until all have
returned. -/
theorem exists_finished (h : Conf.Reachable T.peer room T.init c)
    (hroom : ∀ e k, k < (T.stream e).length → room k) :
    ∃ c', Conf.Reachable T.peer room c c' ∧ ∀ p, c'.Finished p := by
  obtain ⟨c', hreach, hno⟩ := exists_last h
  refine ⟨c', hreach, fun p => ?_⟩
  by_contra hp
  obtain ⟨c'', hstep⟩ := exists_step (h.trans hreach) hroom hp
  exact hno c'' hstep

end Results

end Scenario

end Lib
