import MultiPartyPSI.Lib.Fifo
import Mathlib.Algebra.BigOperators.Group.Finset.Basic
import Mathlib.Algebra.Order.BigOperators.Group.Finset
import Mathlib.Data.Finset.Prod

/-!
# Programs over FIFO channels, and a script for all of them

A `Proc` is a program that sends, waits and in the end returns something; its local state
is what is left of it. Programs are put together by `bind` and by `collect`, a loop.

A run of several programs is right if it follows a script: for every pair of processes
the stream of all messages one sends the other, each stamped with the time it is sent at.
`Plan` says that a program, given its part of the script, receives all that is sent to it,
sends all it has to send and returns a given result, and that it never waits for a message
stamped later than what it does next. Then every order of steps follows the script, none
gets stuck, and none goes on forever.
-/

namespace Lib

/-- A program for one process: `M` are the messages, `R` is what it returns. -/
inductive Proc (P M : Type*) (R : Type*) where
  | ret (r : R)
  | send (dst : P) (m : M) (next : Proc P M R)
  | recv (src : P) (next : M → Proc P M R)

/-- The messages between one process and each other one, with the times they are sent at. -/
abbrev Traffic (P M : Type*) := P → List (ℕ × M)

section Programs

variable {P M α R R' : Type*}

/-- One program after the other. -/
def Proc.bind : Proc P M R → (R → Proc P M R') → Proc P M R'
  | .ret r, f => f r
  | .send d m p, f => .send d m (p.bind f)
  | .recv s k, f => .recv s fun m => (k m).bind f

theorem Proc.bind_assoc {R'' : Type*} (p : Proc P M R) (f : R → Proc P M R')
    (g : R' → Proc P M R'') : (p.bind f).bind g = p.bind fun r => (f r).bind g := by
  induction p with
  | ret r => rfl
  | send d m p ih => exact congrArg (Proc.send d m) ih
  | recv s k ih => exact congrArg (Proc.recv s) (funext ih)

/-- Programs are written with `do`. -/
instance {P M : Type*} : Monad (Proc P M) where
  pure := .ret
  bind := .bind

/-- Send one message. -/
def Proc.sendTo (d : P) (m : M) : Proc P M Unit := .send d m (.ret ())

/-- Wait for one message. -/
def Proc.receiveFrom (s : P) : Proc P M M := .recv s .ret

/-- A loop over a list; what its rounds return is collected. -/
def Proc.collect (f : α → Proc P M R) : List α → Proc P M (List R)
  | [] => .ret []
  | a :: l => (f a).bind fun r => (Proc.collect f l).bind fun rs => .ret (r :: rs)

/-- Send some messages to one process. -/
def Proc.sendList (d : P) (msgs : List M) : Proc P M (List Unit) :=
  Proc.collect (Proc.sendTo d) msgs

/-- Wait for some messages of one process. -/
def Proc.receiveList (s : P) (count : ℕ) : Proc P M (List M) :=
  Proc.collect (fun _ => Proc.receiveFrom s) (List.range count)

/-- What a program does next. -/
def Proc.act : Proc P M R → Act P M (Proc P M R)
  | .ret _ => .done
  | .send d m p => .send d m p
  | .recv s k => .recv s k

/-- Everyone does what their program says. -/
def procAct (_ : P) (s : Proc P M R) : Act P M (Proc P M R) := s.act

theorem Proc.act_eq_send {p next : Proc P M R} {d : P} {m : M} (h : p.act = .send d m next) :
    p = .send d m next := by
  cases p with
  | ret r => cases h
  | send d' m' p' => cases h; rfl
  | recv s k => cases h

theorem Proc.act_eq_recv {p : Proc P M R} {s : P} {k : M → Proc P M R} (h : p.act = .recv s k) :
    p = .recv s k := by
  cases p with
  | ret r => cases h
  | send d m p' => cases h
  | recv s' k' => cases h; rfl

theorem Proc.act_eq_done {p : Proc P M R} (h : p.act = .done) : ∃ r, p = .ret r := by
  cases p with
  | ret r => exact ⟨r, rfl⟩
  | send d m p' => cases h
  | recv s k => cases h

end Programs

/-! ## Plans -/

section Plans

variable {P M α R R' : Type*} [DecidableEq P]

/-- From time `t` to time `t'`, the program gets exactly `inp`, sends exactly `out` and returns
`r`. What it waits for at some time has been sent before. -/
inductive Plan : ℕ → Proc P M R → (inp out : Traffic P M) → R → ℕ → Prop where
  | ret {t t' : ℕ} (r : R) : t ≤ t' → Plan t (.ret r) (fun _ => []) (fun _ => []) r t'
  | send {t t₀ t' : ℕ} {d : P} {m : M} {p : Proc P M R} {inp out : Traffic P M} {r : R} :
      t ≤ t₀ → Plan t₀ p inp out r t' →
      Plan t (.send d m p) inp (Function.update out d ((t₀, m) :: out d)) r t'
  | recv {t t₀ t' τ : ℕ} {s : P} {m : M} {k : M → Proc P M R} {inp out : Traffic P M} {r : R} :
      t ≤ t₀ → τ < t₀ → Plan t₀ (k m) inp out r t' →
      Plan t (.recv s k) (Function.update inp s ((τ, m) :: inp s)) out r t'

variable {t t' t'' : ℕ} {p : Proc P M R} {inp out inp' out' : Traffic P M} {r : R} {r' : R'}

theorem Plan.mono {u : ℕ} (hu : u ≤ t) (h : Plan t p inp out r t') : Plan u p inp out r t' := by
  cases h with
  | ret r hle => exact .ret r (hu.trans hle)
  | send hle hp => exact .send (hu.trans hle) hp
  | recv hle hτ hp => exact .recv (hu.trans hle) hτ hp

theorem Plan.mono_right {u : ℕ} (h : Plan t p inp out r t') (hu : t' ≤ u) :
    Plan t p inp out r u := by
  induction h with
  | ret r hle => exact .ret r (hle.trans hu)
  | send hle _ ih => exact .send hle (ih hu)
  | recv hle hτ _ ih => exact .recv hle hτ (ih hu)

/-- Traffic may be rewritten. -/
theorem Plan.congr (h : Plan t p inp out r t') (hi : ∀ q, inp q = inp' q)
    (ho : ∀ q, out q = out' q) : Plan t p inp' out' r t' := by
  rw [← show inp = inp' from funext hi, ← show out = out' from funext ho]
  exact h

theorem Plan.ret_inv {r₀ : R} (h : Plan t (.ret r₀) inp out r t') :
    inp = (fun _ => []) ∧ out = (fun _ => []) ∧ r₀ = r := by
  cases h
  exact ⟨rfl, rfl, rfl⟩

theorem Plan.send_inv {d : P} {m : M} (h : Plan t (.send d m p) inp out r t') :
    ∃ t₀ o, out = Function.update o d ((t₀, m) :: o d) ∧ Plan t₀ p inp o r t' := by
  cases h with
  | send _ hp => exact ⟨_, _, rfl, hp⟩

theorem Plan.recv_inv {s : P} {k : M → Proc P M R} (h : Plan t (.recv s k) inp out r t') :
    ∃ t₀ τ m i, τ < t₀ ∧ inp = Function.update i s ((τ, m) :: i s) ∧
      Plan t₀ (k m) i out r t' := by
  cases h with
  | recv _ hτ hp => exact ⟨_, _, _, _, hτ, rfl, hp⟩

/-- Nothing is sent before its time. -/
theorem Plan.le_time (h : Plan t p inp out r t') {q : P} {e : ℕ × M} (he : e ∈ out q) :
    t ≤ e.1 := by
  induction h with
  | ret r hle => cases he
  | @send t t₀ t' d m p inp out r hle hp ih =>
      by_cases hq : q = d
      · subst hq
        rw [Function.update_self] at he
        rcases List.mem_cons.mp he with rfl | he
        · exact hle
        · exact hle.trans (ih he)
      · rw [Function.update_of_ne hq] at he
        exact hle.trans (ih he)
  | recv hle hτ hp ih => exact hle.trans (ih he)

/-- One program after the other: their traffic is appended. -/
theorem Plan.bind {f : R → Proc P M R'} (h : Plan t p inp out r t')
    (h' : Plan t' (f r) inp' out' r' t'') :
    Plan t (p.bind f) (fun q => inp q ++ inp' q) (fun q => out q ++ out' q) r' t'' := by
  induction h with
  | ret r hle => exact h'.mono hle
  | @send t t₀ t' d m p inp out r hle hp ih =>
      refine (Plan.send hle (ih h')).congr (fun _ => rfl) fun q => ?_
      by_cases hq : q = d
      · subst hq
        rw [Function.update_self, Function.update_self, List.cons_append]
      · rw [Function.update_of_ne hq, Function.update_of_ne hq]
  | @recv t t₀ t' τ s m k inp out r hle hτ hp ih =>
      refine (Plan.recv hle hτ (ih h')).congr (fun q => ?_) fun _ => rfl
      by_cases hq : q = s
      · subst hq
        rw [Function.update_self, Function.update_self, List.cons_append]
      · rw [Function.update_of_ne hq, Function.update_of_ne hq]

theorem Plan.sendTo (t : ℕ) (d : P) (m : M) :
    Plan t (Proc.sendTo d m) (fun _ => []) (fun q => if q = d then [(t, m)] else []) () t := by
  refine (Plan.send le_rfl (Plan.ret () le_rfl)).congr (fun _ => rfl) fun q => ?_
  by_cases hq : q = d
  · subst hq
    rw [Function.update_self, if_pos rfl]
  · rw [Function.update_of_ne hq, if_neg hq]

theorem Plan.receiveFrom {τ : ℕ} (hτ : τ < t) (s : P) (m : M) :
    Plan t (Proc.receiveFrom s) (fun q => if q = s then [(τ, m)] else []) (fun _ => []) m t := by
  refine (Plan.recv le_rfl hτ (Plan.ret m le_rfl)).congr (fun q => ?_) fun _ => rfl
  by_cases hq : q = s
  · subst hq
    rw [Function.update_self, if_pos rfl]
  · rw [Function.update_of_ne hq, if_neg hq]

/-- A loop: the traffic of its rounds is appended. Round `i` takes the time from `T i` to
`T (i + 1)`. -/
theorem Plan.collect {f : α → Proc P M R} {l : List α} (T : ℕ → ℕ) (inp out : ℕ → Traffic P M)
    (r : ℕ → R) (h : ∀ i a, l[i]? = some a → Plan (T i) (f a) (inp i) (out i) (r i) (T (i + 1))) :
    Plan (T 0) (Proc.collect f l) (fun q => (List.range l.length).flatMap fun i => inp i q)
      (fun q => (List.range l.length).flatMap fun i => out i q) ((List.range l.length).map r)
      (T l.length) := by
  induction l generalizing T inp out r with
  | nil => exact .ret [] le_rfl
  | cons a l ih =>
      have hrest := ih (fun i => T (i + 1)) (fun i => inp (i + 1)) (fun i => out (i + 1))
        (fun i => r (i + 1)) fun i b hb => h (i + 1) b hb
      rw [List.length_cons, List.range_succ_eq_map, List.map_cons, List.map_map]
      refine ((h 0 a rfl).bind (hrest.bind (.ret (r 0 :: _) le_rfl))).congr
        (fun q => ?_) fun q => ?_
      · rw [List.append_nil, List.flatMap_cons, List.flatMap_map]
      · rw [List.append_nil, List.flatMap_cons, List.flatMap_map]

/-- A loop whose rounds take no time. -/
theorem Plan.collect_now {f : α → Proc P M R} {l : List α} (inp out : α → Traffic P M) (r : α → R)
    (h : ∀ a ∈ l, Plan t (f a) (inp a) (out a) (r a) t) :
    Plan t (Proc.collect f l) (fun q => l.flatMap fun a => inp a q)
      (fun q => l.flatMap fun a => out a q) (l.map r) t := by
  induction l with
  | nil => exact .ret [] le_rfl
  | cons a l ih =>
      have hrest := ih fun b hb => h b (List.mem_cons_of_mem a hb)
      refine ((h a List.mem_cons_self).bind (hrest.bind (.ret (r a :: l.map r) le_rfl))).congr
        (fun q => ?_) fun q => ?_
      · rw [List.append_nil, List.flatMap_cons]
      · rw [List.append_nil, List.flatMap_cons]

theorem flatMap_if {β : Type*} (c : Prop) [Decidable c] (l : List α) (g : α → List β) :
    (l.flatMap fun a => if c then g a else []) = if c then l.flatMap g else [] := by
  split
  · rfl
  · simp

/-- Of a loop over processes, the one round that is about `q`. -/
theorem flatMap_ite_eq {β : Type*} {l : List P} (hl : l.Nodup) (q : P) (g : P → List β) :
    (l.flatMap fun a => if q = a then g a else []) = if q ∈ l then g q else [] := by
  induction l with
  | nil => simp
  | cons a l ih =>
      obtain ⟨ha, hl⟩ := List.nodup_cons.mp hl
      rw [List.flatMap_cons, ih hl]
      by_cases hq : q = a
      · subst hq
        rw [if_pos rfl, if_neg ha, if_pos List.mem_cons_self, List.append_nil]
      · rw [if_neg hq, List.nil_append]
        simp [hq]

/-- A loop that sends something to every process of a list. -/
theorem Plan.collect_sends {f : P → Proc P M R} {l : List P} (hl : l.Nodup)
    (items : P → List (ℕ × M)) (r : P → R)
    (h : ∀ q ∈ l, Plan t (f q) (fun _ => []) (fun q' => if q' = q then items q else []) (r q) t) :
    Plan t (Proc.collect f l) (fun _ => []) (fun q => if q ∈ l then items q else [])
      (l.map r) t := by
  refine (Plan.collect_now (fun _ _ => []) _ r h).congr (fun q => by simp) fun q => ?_
  exact flatMap_ite_eq hl q items

/-- A loop that waits for something from every process of a list. -/
theorem Plan.collect_recvs {f : P → Proc P M R} {l : List P} (hl : l.Nodup)
    (items : P → List (ℕ × M)) (r : P → R)
    (h : ∀ q ∈ l, Plan t (f q) (fun q' => if q' = q then items q else []) (fun _ => []) (r q) t) :
    Plan t (Proc.collect f l) (fun q => if q ∈ l then items q else []) (fun _ => [])
      (l.map r) t := by
  refine (Plan.collect_now _ (fun _ _ => []) r h).congr (fun q => ?_) fun q => by simp
  exact flatMap_ite_eq hl q items

theorem Plan.sendList (t : ℕ) (d : P) (msgs : List M) :
    Plan t (Proc.sendList d msgs) (fun _ => [])
      (fun q => if q = d then msgs.map fun m => (t, m) else [])
      (msgs.map fun _ => ()) t := by
  refine (Plan.collect_now (fun _ _ => []) _ (fun _ => ()) fun m _ => Plan.sendTo t d m).congr
    (fun q => ?_) fun q => ?_
  · simp
  · rw [flatMap_if, List.map_eq_flatMap]

theorem Plan.receiveList {τ : ℕ} (hτ : τ < t) (s : P) (msgs : List M) {count : ℕ}
    (hcount : msgs.length = count) :
    Plan t (Proc.receiveList s count)
      (fun q => if q = s then msgs.map fun m => (τ, m) else []) (fun _ => []) msgs t := by
  have h : ∀ (l : List ℕ) (msgs : List M), msgs.length = l.length →
      Plan t (Proc.collect (fun _ => Proc.receiveFrom s) l)
        (fun q => if q = s then msgs.map fun m => (τ, m) else []) (fun _ => []) msgs t := by
    intro l
    induction l with
    | nil =>
        intro msgs hlen
        rw [List.length_eq_zero_iff.mp hlen]
        exact (Plan.ret [] le_rfl).congr (fun q => by simp) fun _ => rfl
    | cons a l ih =>
        intro msgs hlen
        cases msgs with
        | nil => cases hlen
        | cons m msgs =>
            refine ((Plan.receiveFrom hτ s m).bind ((ih msgs (Nat.succ.inj hlen)).bind
              (.ret (m :: msgs) le_rfl))).congr (fun q => ?_) fun _ => rfl
            split
            · rw [List.append_nil, List.map_cons]
              rfl
            · rfl
  exact h _ msgs (by rw [hcount, List.length_range])

end Plans

end Lib
