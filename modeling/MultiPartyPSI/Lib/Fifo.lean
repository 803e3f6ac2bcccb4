import Mathlib.Logic.Function.Basic
import Mathlib.Logic.Relation

/-!
# Processes that talk over FIFO channels

Each process is a local state and a program that says what it does next: send a message
to a peer, wait for one from a peer, or nothing any more. Between any two processes
there is a channel in each direction that keeps messages in order. A step lets one
process do its next action; a receive needs a message, a send needs room.

Everything about a protocol is then about `Reachable` states: `reachable_induct` is the
one rule, and an invariant has to be carried over a send and over a receive.
-/

namespace Lib

/-- The next action of a process with messages `M` and local states `S`. -/
inductive Act (P M S : Type*) where
  /-- Send `m` to `dst` and go on in `next`. -/
  | send (dst : P) (m : M) (next : S)
  /-- Wait for a message of `src` and go on with it. -/
  | recv (src : P) (next : M → S)
  /-- Nothing is left to do. -/
  | done

/-- The local states, and what is in flight from one process to another. -/
structure Net (P M S : Type*) where
  loc : P → S
  chan : P × P → List M

section Fifo

variable {P M S : Type*} [DecidableEq P]

/-- Process `p` goes on in `s`, having left channel `k` with `l`. -/
def Net.put (c : Net P M S) (p : P) (s : S) (k : P × P) (l : List M) : Net P M S :=
  ⟨Function.update c.loc p s, Function.update c.chan k l⟩

section Put

variable (c : Net P M S) (p : P) (s : S) (k : P × P) (l : List M)

@[simp] theorem Net.put_loc_self : (c.put p s k l).loc p = s := Function.update_self _ _ _

theorem Net.put_loc_ne {p' : P} (h : p' ≠ p) : (c.put p s k l).loc p' = c.loc p' :=
  Function.update_of_ne h _ _

@[simp] theorem Net.put_chan_self : (c.put p s k l).chan k = l := Function.update_self _ _ _

theorem Net.put_chan_ne {k' : P × P} (h : k' ≠ k) : (c.put p s k l).chan k' = c.chan k' :=
  Function.update_of_ne h _ _

end Put

/-- One action of one process. `room` says at which lengths a channel takes a message more. -/
inductive Net.Step (prog : P → S → Act P M S) (room : Nat → Prop) :
    Net P M S → Net P M S → Prop where
  | send {c : Net P M S} {p q : P} {m : M} {s : S} :
      prog p (c.loc p) = .send q m s → room (c.chan (p, q)).length →
      Net.Step prog room c (c.put p s (p, q) (c.chan (p, q) ++ [m]))
  | recv {c : Net P M S} {p q : P} {m : M} {l : List M} {k : M → S} :
      prog p (c.loc p) = .recv q k → c.chan (q, p) = m :: l →
      Net.Step prog room c (c.put p (k m) (q, p) l)

/-- All states that some order of actions leads to. -/
def Net.Reachable (prog : P → S → Act P M S) (room : Nat → Prop) (init c : Net P M S) : Prop :=
  Relation.ReflTransGen (Net.Step prog room) init c

/-- Channels that always take a message. -/
def unbounded : Nat → Prop := fun _ => True

/-- Process `p` has finished. -/
def Net.Finished (prog : P → S → Act P M S) (c : Net P M S) (p : P) : Prop :=
  prog p (c.loc p) = .done

/-- What holds at first and is preserved by every step holds of every reachable state. -/
theorem Net.reachable_induct {prog : P → S → Act P M S} {room : Nat → Prop}
    {init c : Net P M S} {I : Net P M S → Prop} (h : Net.Reachable prog room init c)
    (h0 : I init) (hs : ∀ c c', I c → Net.Step prog room c c' → I c') : I c := by
  induction h with
  | refl => exact h0
  | tail _ hstep ih => exact hs _ _ ih hstep

end Fifo

end Lib
