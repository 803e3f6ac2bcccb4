import MultiPartyPSI.Lib.Proc

/-!
# Runs that follow a script

If every process has a plan for its part of a script, the network of all of them follows
the script: at any moment what is in flight from `s` to `d`, followed by what `s` has still
to send there, is what `d` has still to receive from `s`. Results, progress and the end of
every run come from this one invariant.
-/

namespace Lib

variable {P M R : Type*} [DecidableEq P]

/-- What is received so far, on every channel. -/
abbrev History (P M : Type*) := P × P → List M

/-- Runs, with the messages received on the way. -/
inductive Net.Run {S : Type*} (prog : P → S → Act P M S) (room : ℕ → Prop) (init : Net P M S) :
    History P M → Net P M S → Prop where
  | start : Net.Run prog room init (fun _ => []) init
  | send {h : History P M} {c : Net P M S} {p q : P} {m : M} {s : S} :
      Net.Run prog room init h c → prog p (c.loc p) = .send q m s →
      room (c.chan (p, q)).length →
      Net.Run prog room init h (c.put p s (p, q) (c.chan (p, q) ++ [m]))
  | recv {h : History P M} {c : Net P M S} {p q : P} {m : M} {l : List M} {k : M → S} :
      Net.Run prog room init h c → prog p (c.loc p) = .recv q k → c.chan (q, p) = m :: l →
      Net.Run prog room init (Function.update h (q, p) (h (q, p) ++ [m])) (c.put p (k m) (q, p) l)

theorem Net.Reachable.exists_run {S : Type*} {prog : P → S → Act P M S} {room : ℕ → Prop}
    {init c : Net P M S} (h : Net.Reachable prog room init c) :
    ∃ hist, Net.Run prog room init hist c := by
  induction h with
  | refl => exact ⟨_, .start⟩
  | tail _ hstep ih =>
      obtain ⟨hist, hrun⟩ := ih
      cases hstep with
      | send hp hroom => exact ⟨_, .send hrun hp hroom⟩
      | recv hp hm => exact ⟨_, .recv hrun hp hm⟩

theorem Net.Run.reachable {S : Type*} {prog : P → S → Act P M S} {room : ℕ → Prop}
    {init c : Net P M S} {hist : History P M} (h : Net.Run prog room init hist c) :
    Net.Reachable prog room init c := by
  induction h with
  | start => exact .refl
  | send _ hp hroom ih => exact ih.tail (.send hp hroom)
  | recv _ hp hm ih => exact ih.tail (.recv hp hm)

/-! ## The next item of a stream -/

section Pop

variable {I : Type*} [DecidableEq I] {f : I → Traffic P M} {p : I} {q : P} {o : Traffic P M}
variable {e : ℕ × M}

/-- The stream that starts with the item. -/
theorem Traffic.pop_self (ho : f p = Function.update o q (e :: o q)) :
    f p q = e :: Function.update f p o p q := by
  rw [Function.update_self, ho, Function.update_self]

/-- Taken away there, it is taken away nowhere else. -/
theorem Traffic.pop_ne (ho : f p = Function.update o q (e :: o q)) {s : I} {d : P}
    (hk : (s, d) ≠ (p, q)) : Function.update f p o s d = f s d := by
  by_cases hs : s = p
  · subst hs
    have hd : d ≠ q := fun hd => hk (by rw [hd])
    rw [Function.update_self, ho, Function.update_of_ne hd]
  · rw [Function.update_of_ne hs]

theorem Traffic.length_pop_le (ho : f p = Function.update o q (e :: o q)) (s : I) (d : P) :
    (Function.update f p o s d).length ≤ (f s d).length := by
  by_cases hk : (s, d) = (p, q)
  · cases hk
    rw [pop_self ho]
    exact Nat.le_succ _
  · rw [pop_ne ho hk]

end Pop

/-- Programs for all processes, with a script that they have plans for. -/
structure Script (P M R : Type*) [DecidableEq P] where
  prog : P → Proc P M R
  /-- What the first process sends the second. -/
  stream : P → P → List (ℕ × M)
  result : P → R
  plan : ∀ p, ∃ t t', Plan t (prog p) (fun s => stream s p) (fun d => stream p d) (result p) t'
  /-- Those who send or receive. -/
  parties : Finset P
  mem_parties : ∀ {s d}, stream s d ≠ [] → s ∈ parties ∧ d ∈ parties

namespace Script

variable (T : Script P M R)

/-- Everyone at the start of their program. -/
def init : Net P M (Proc P M R) := ⟨T.prog, fun _ => []⟩

/-- The network is where the script has `inp` and `out` still to come. -/
structure Follows (hist : History P M) (c : Net P M (Proc P M R)) (inp out : P → Traffic P M) :
    Prop where
  plan : ∀ p, ∃ t t', Plan t (c.loc p) (inp p) (out p) (T.result p) t'
  flight : ∀ s d, ∃ fl, c.chan (s, d) = fl.map Prod.snd ∧ fl ++ out s d = inp d s
  hist : ∀ s d, hist (s, d) ++ (inp d s).map Prod.snd = (T.stream s d).map Prod.snd

/-- What is still to come. -/
def remaining (inp out : P → Traffic P M) : ℕ :=
  ∑ k ∈ T.parties ×ˢ T.parties, ((out k.1 k.2).length + (inp k.2 k.1).length)

section Steps

variable {T} {hist : History P M} {c : Net P M (Proc P M R)} {inp out : P → Traffic P M}

theorem Follows.start :
    T.Follows (fun _ => []) T.init (fun p s => T.stream s p) (fun p d => T.stream p d) :=
  ⟨T.plan, fun _ _ => ⟨[], rfl, rfl⟩, fun _ _ => rfl⟩

/-- What is still to be received is no more than the script has. -/
theorem Follows.length_le (h : T.Follows hist c inp out) (s d : P) :
    (inp d s).length ≤ (T.stream s d).length := by
  have := congrArg List.length (h.hist s d)
  rw [List.length_append, List.length_map, List.length_map] at this
  omega

theorem Follows.mem_parties (h : T.Follows hist c inp out) {s d : P} (hne : inp d s ≠ []) :
    (s, d) ∈ T.parties ×ˢ T.parties := by
  refine Finset.mem_product.mpr (T.mem_parties ?_)
  intro hnil
  have := h.length_le s d
  rw [hnil] at this
  exact hne (List.length_eq_zero_iff.mp (Nat.le_zero.mp this))

/-- One item less on one channel. -/
theorem remaining_lt {inp' out' : P → Traffic P M} {k : P × P}
    (hk : k ∈ T.parties ×ˢ T.parties)
    (hle : ∀ s d, (out' s d).length ≤ (out s d).length ∧ (inp' d s).length ≤ (inp d s).length)
    (hlt : (out' k.1 k.2).length + (inp' k.2 k.1).length
      < (out k.1 k.2).length + (inp k.2 k.1).length) :
    T.remaining inp' out' < T.remaining inp out :=
  Finset.sum_lt_sum (fun k _ => Nat.add_le_add (hle k.1 k.2).1 (hle k.1 k.2).2) ⟨k, hk, hlt⟩

theorem Follows.send (h : T.Follows hist c inp out) {p q : P} {m : M} {s : Proc P M R}
    (hp : (c.loc p).act = .send q m s) :
    ∃ out', T.Follows hist (c.put p s (p, q) (c.chan (p, q) ++ [m])) inp out' ∧
      T.remaining inp out' < T.remaining inp out := by
  obtain ⟨t, t', hplan⟩ := h.plan p
  rw [Proc.act_eq_send hp] at hplan
  -- the first message to `q` is the one that is sent
  obtain ⟨t₀, o, ho, hnext⟩ := hplan.send_inv
  have hhead := Traffic.pop_self ho
  refine ⟨Function.update out p o, ⟨fun p' => ?_, fun s' d' => ?_, h.hist⟩, ?_⟩
  · by_cases hpp : p' = p
    · subst hpp
      rw [Function.update_self, Net.put_loc_self]
      exact ⟨t₀, t', hnext⟩
    · rw [Function.update_of_ne hpp, Net.put_loc_ne _ _ _ _ _ hpp]
      exact h.plan p'
  · obtain ⟨fl, hfl, hin⟩ := h.flight s' d'
    by_cases hk : (s', d') = (p, q)
    · cases hk
      -- it moves from what is to be sent to the end of what is in flight
      refine ⟨fl ++ [(t₀, m)], ?_, ?_⟩
      · rw [Net.put_chan_self, hfl, List.map_append]
        rfl
      · rw [← hin, hhead, List.append_assoc]
        rfl
    · refine ⟨fl, ?_, ?_⟩
      · rw [Net.put_chan_ne _ _ _ _ _ hk]
        exact hfl
      · rw [← hin, Traffic.pop_ne ho hk]
  · obtain ⟨fl, -, hin⟩ := h.flight p q
    have hne : inp q p ≠ [] := by
      rw [← hin, hhead]
      exact List.append_ne_nil_of_right_ne_nil _ (List.cons_ne_nil _ _)
    refine remaining_lt (k := (p, q)) (h.mem_parties hne)
      (fun s' d' => ⟨Traffic.length_pop_le ho s' d', le_rfl⟩) ?_
    rw [hhead, List.length_cons]
    exact Nat.add_lt_add_right (Nat.lt_succ_self _) _

theorem Follows.recv (h : T.Follows hist c inp out) {p q : P} {m : M} {l : List M}
    {k : M → Proc P M R} (hp : (c.loc p).act = .recv q k) (hm : c.chan (q, p) = m :: l) :
    ∃ inp', T.Follows (Function.update hist (q, p) (hist (q, p) ++ [m]))
        (c.put p (k m) (q, p) l) inp' out ∧
      T.remaining inp' out < T.remaining inp out := by
  obtain ⟨t, t', hplan⟩ := h.plan p
  rw [Proc.act_eq_recv hp] at hplan
  obtain ⟨t₀, τ, m', i, -, hi, hnext⟩ := hplan.recv_inv
  have hhead := Traffic.pop_self hi
  -- what is first in flight is what is expected first
  obtain ⟨fl, hfl, hin⟩ := h.flight q p
  obtain ⟨e, fl, rfl⟩ : ∃ e fl', fl = e :: fl' := by
    cases fl with
    | nil =>
        rw [hm] at hfl
        cases hfl
    | cons e fl' => exact ⟨e, fl', rfl⟩
  rw [hhead, List.cons_append] at hin
  obtain ⟨rfl, hrest⟩ := List.cons.inj hin
  rw [hm, List.map_cons] at hfl
  obtain ⟨rfl, rfl⟩ := List.cons.inj hfl
  refine ⟨Function.update inp p i, ⟨fun p' => ?_, fun s' d' => ?_, fun s' d' => ?_⟩, ?_⟩
  · by_cases hpp : p' = p
    · subst hpp
      rw [Function.update_self, Net.put_loc_self]
      exact ⟨t₀, t', hnext⟩
    · rw [Function.update_of_ne hpp, Net.put_loc_ne _ _ _ _ _ hpp]
      exact h.plan p'
  · by_cases hk : (s', d') = (q, p)
    · cases hk
      refine ⟨fl, ?_, hrest⟩
      rw [Net.put_chan_self]
    · obtain ⟨fl', hfl', hin'⟩ := h.flight s' d'
      refine ⟨fl', ?_, ?_⟩
      · rw [Net.put_chan_ne _ _ _ _ _ hk]
        exact hfl'
      · rw [hin', Traffic.pop_ne hi fun hd => hk (Prod.ext (congrArg Prod.snd hd)
          (congrArg Prod.fst hd))]
  · by_cases hk : (s', d') = (q, p)
    · cases hk
      -- it moves from what is to be received to what has been
      rw [Function.update_self, ← h.hist q p, hhead, List.append_assoc]
      rfl
    · rw [Function.update_of_ne hk, ← h.hist s' d', Traffic.pop_ne hi fun hd =>
        hk (Prod.ext (congrArg Prod.snd hd) (congrArg Prod.fst hd))]
  · have hne : inp p q ≠ [] := by
      rw [hhead]
      exact List.cons_ne_nil _ _
    refine remaining_lt (k := (q, p)) (h.mem_parties hne)
      (fun s' d' => ⟨le_rfl, Traffic.length_pop_le hi d' s'⟩) ?_
    rw [hhead, List.length_cons]
    exact Nat.add_lt_add_left (Nat.lt_succ_self _) _

/-- Every run follows the script, and each step leaves less to come. -/
theorem follows_of_step {room : ℕ → Prop} {c' : Net P M (Proc P M R)}
    (h : T.Follows hist c inp out) (hs : Net.Step procAct room c c') :
    ∃ hist' inp' out', T.Follows hist' c' inp' out' ∧
      T.remaining inp' out' < T.remaining inp out := by
  cases hs with
  | send hp _ =>
      obtain ⟨out', hf, hlt⟩ := h.send hp
      exact ⟨_, _, _, hf, hlt⟩
  | recv hp hm =>
      obtain ⟨inp', hf, hlt⟩ := h.recv hp hm
      exact ⟨_, _, _, hf, hlt⟩

variable (T) in
theorem follows_of_run {room : ℕ → Prop} (h : Net.Run procAct room T.init hist c) :
    ∃ inp out, T.Follows hist c inp out := by
  induction h with
  | start => exact ⟨_, _, .start⟩
  | send _ hp _ ih =>
      obtain ⟨inp, out, hf⟩ := ih
      obtain ⟨out', hf', -⟩ := hf.send hp
      exact ⟨_, _, hf'⟩
  | recv _ hp hm ih =>
      obtain ⟨inp, out, hf⟩ := ih
      obtain ⟨inp', hf', -⟩ := hf.recv hp hm
      exact ⟨_, _, hf'⟩

/-- What is to be sent is not yet in flight: the channel holds less than the whole stream. -/
theorem Follows.length_chan_lt (h : T.Follows hist c inp out) {p q : P} {m : M}
    {next : Proc P M R} (hp : c.loc p = .send q m next) :
    (c.chan (p, q)).length < (T.stream p q).length := by
  obtain ⟨fl, hfl, hflight⟩ := h.flight p q
  obtain ⟨t, t', hplan⟩ := h.plan p
  rw [hp] at hplan
  obtain ⟨t₀, o, ho, -⟩ := hplan.send_inv
  have hle := h.length_le p q
  rw [← hflight, ho, Function.update_self, List.length_append, List.length_cons] at hle
  rw [hfl, List.length_map]
  omega

/-- While a process waits for a message stamped `τ`, it or another one can go on. -/
theorem Follows.exists_step_of_recv {room : ℕ → Prop} (h : T.Follows hist c inp out)
    (hroom : ∀ s d k, k < (T.stream s d).length → room k) (τ : ℕ) :
    ∀ {p q : P} {k : M → Proc P M R} {m : M} {l : List (ℕ × M)}, c.loc p = .recv q k →
      inp p q = (τ, m) :: l → ∃ c', Net.Step procAct room c c' := by
  induction τ using Nat.strong_induction_on with
  | _ τ ih =>
      intro p q k m l hp hin
      obtain ⟨fl, hfl, hflight⟩ := h.flight q p
      cases fl with
      | cons e fl =>
          exact ⟨_, .recv (show (c.loc p).act = .recv q k by rw [hp]; rfl) hfl⟩
      | nil =>
          rw [List.nil_append, hin] at hflight
          obtain ⟨t, t', hplan⟩ := h.plan q
          cases hq : c.loc q with
          | ret r =>
              rw [hq] at hplan
              rw [hplan.ret_inv.2.1] at hflight
              cases hflight
          | send d m' next =>
              exact ⟨_, .send (show (c.loc q).act = .send d m' next by rw [hq]; rfl)
                (hroom q d _ (h.length_chan_lt hq))⟩
          | recv s k' =>
              -- the sender has it still to send, so it waits for something stamped earlier
              rw [hq] at hplan
              obtain ⟨t₀, τ', m', i, hτ, hi, hnext⟩ := hplan.recv_inv
              have hle : t₀ ≤ τ := hnext.le_time (q := p) (e := (τ, m)) (by
                rw [hflight]
                exact List.mem_cons_self)
              exact ih τ' (hτ.trans_le hle) hq (by rw [hi, Function.update_self])

/-- **Progress**: while someone has not finished, someone can go on. -/
theorem Follows.exists_step {room : ℕ → Prop} (h : T.Follows hist c inp out)
    (hroom : ∀ s d k, k < (T.stream s d).length → room k) {p : P}
    (hp : (c.loc p).act ≠ .done) : ∃ c', Net.Step procAct room c c' := by
  cases hloc : c.loc p with
  | ret r =>
      rw [hloc] at hp
      exact absurd rfl hp
  | send d m next =>
      exact ⟨_, .send (show (c.loc p).act = .send d m next by rw [hloc]; rfl)
        (hroom p d _ (h.length_chan_lt hloc))⟩
  | recv s k =>
      obtain ⟨t, t', hplan⟩ := h.plan p
      rw [hloc] at hplan
      obtain ⟨t₀, τ, m, i, -, hi, -⟩ := hplan.recv_inv
      exact h.exists_step_of_recv hroom τ hloc (by rw [hi, Function.update_self])

end Steps

section Results

variable {T} {room : ℕ → Prop} {hist : History P M} {c : Net P M (Proc P M R)}

/-- **What is received** is what the script says, in that order. -/
theorem received_prefix (h : Net.Run procAct room T.init hist c) (s d : P) :
    hist (s, d) <+: (T.stream s d).map Prod.snd := by
  obtain ⟨inp, out, hf⟩ := T.follows_of_run h
  exact ⟨_, hf.hist s d⟩

/-- Who has finished has received everything. -/
theorem received_eq (h : Net.Run procAct room T.init hist c) {d : P}
    (hd : Net.Finished procAct c d) (s : P) : hist (s, d) = (T.stream s d).map Prod.snd := by
  obtain ⟨inp, out, hf⟩ := T.follows_of_run h
  obtain ⟨r, hr⟩ := Proc.act_eq_done hd
  obtain ⟨t, t', hplan⟩ := hf.plan d
  rw [hr] at hplan
  rw [← hf.hist s d, hplan.ret_inv.1]
  exact (List.append_nil _).symm

/-- **What is returned** is what the script says. -/
theorem eq_result (h : Net.Reachable procAct room T.init c) {p : P} {r : R}
    (hp : c.loc p = .ret r) : r = T.result p := by
  obtain ⟨hist, hrun⟩ := h.exists_run
  obtain ⟨inp, out, hf⟩ := T.follows_of_run hrun
  obtain ⟨t, t', hplan⟩ := hf.plan p
  rw [hp] at hplan
  exact hplan.ret_inv.2.2

/-- **Progress** in every reachable state, where every channel takes its whole stream. -/
theorem exists_step (h : Net.Reachable procAct room T.init c)
    (hroom : ∀ s d k, k < (T.stream s d).length → room k) {p : P}
    (hp : ¬ Net.Finished procAct c p) : ∃ c', Net.Step procAct room c c' := by
  obtain ⟨hist, hrun⟩ := h.exists_run
  obtain ⟨inp, out, hf⟩ := T.follows_of_run hrun
  exact hf.exists_step hroom hp

variable (T) in
/-- **No run goes on forever.** -/
theorem terminates {run : ℕ → Net P M (Proc P M R)} (h0 : run 0 = T.init) :
    ¬ ∀ k, Net.Step procAct room (run k) (run (k + 1)) := by
  intro hstep
  have hleft : ∀ k, ∃ hist inp out, T.Follows hist (run k) inp out ∧
      T.remaining inp out + k
        ≤ T.remaining (fun p s => T.stream s p) (fun p d => T.stream p d) := by
    intro k
    induction k with
    | zero =>
        rw [h0]
        exact ⟨_, _, _, .start, le_rfl⟩
    | succ k ih =>
        obtain ⟨hist, inp, out, hf, hle⟩ := ih
        obtain ⟨hist', inp', out', hf', hlt⟩ := follows_of_step hf (hstep k)
        exact ⟨_, _, _, hf', by omega⟩
  obtain ⟨_, _, _, _, hle⟩ := hleft
    (T.remaining (fun p s => T.stream s p) (fun p d => T.stream p d) + 1)
  omega

/-- Every run can be continued until no step is left. -/
theorem exists_last (h : Net.Reachable procAct room T.init c) :
    ∃ c', Net.Reachable procAct room c c' ∧
      ∀ c'', ¬ Net.Step procAct room c' c'' := by
  obtain ⟨hist, hrun⟩ := h.exists_run
  obtain ⟨inp, out, hf⟩ := T.follows_of_run hrun
  clear h hrun
  induction hk : T.remaining inp out using Nat.strong_induction_on generalizing hist c inp out with
  | _ k ih =>
      by_cases hlast : ∃ c', Net.Step procAct room c c'
      · obtain ⟨c', hstep⟩ := hlast
        obtain ⟨hist', inp', out', hf', hlt⟩ := follows_of_step hf hstep
        obtain ⟨c'', hreach, hno⟩ := ih _ (hk ▸ hlt) hist' inp' out' hf' rfl
        exact ⟨c'', .head hstep hreach, hno⟩
      · exact ⟨c, .refl, fun c' hstep => hlast ⟨c', hstep⟩⟩

/-- Where every channel takes its whole stream, every run can be continued until all have
finished. -/
theorem exists_finished (h : Net.Reachable procAct room T.init c)
    (hroom : ∀ s d k, k < (T.stream s d).length → room k) :
    ∃ c', Net.Reachable procAct room c c' ∧ ∀ p, Net.Finished procAct c' p := by
  obtain ⟨c', hreach, hno⟩ := exists_last h
  refine ⟨c', hreach, fun p => ?_⟩
  by_contra hp
  obtain ⟨c'', hstep⟩ := exists_step (h.trans hreach) hroom hp
  exact hno c'' hstep

end Results

end Script

end Lib
