import MultiPartyPSI.Oprg.BaseOtRun
import MultiPartyPSI.Party.PsiParty

/-!
# Runs of all parties

The threads of all parties as a network. `PsiSession.scenario` says what goes over every
socket, and when: the keys of the shares at time 0, the points and the keys of the base OTs at
1 and 2, the matrices of the OT extension at 3, and the blocks of the followers at 4. Parts of
it share a socket, so their order matters: the first socket between the leader and a follower
carries all of them.

`PsiSession.run_spec` is what every order of steps leads to.
-/

namespace MultiPartyPSI

open Lib Buf

/-! ## Traffic on sockets -/

section Sockets

variable {Γ : Type} {items items' : Nat → List (ℕ × (Byte ⊕ Γ))}

/-- Traffic with one party, socket by socket. -/
def withParty (q : Nat) (items : Nat → List (ℕ × (Byte ⊕ Γ))) : Traffic Socket (Byte ⊕ Γ) :=
  fun e => if e.1 = q then items e.2 else []

theorem withParty_append (q : Nat) (e : Socket) :
    withParty q items e ++ withParty q items' e
      = withParty q (fun id => items id ++ items' id) e := by
  unfold withParty
  split <;> rfl

theorem toOnly_eq_withParty (q id : Nat) (l : List (ℕ × (Byte ⊕ Γ))) (e : Socket) :
    toOnly (q, id) l e = withParty q (fun y => if y = id then l else []) e := by
  obtain ⟨b, y⟩ := e
  rw [withParty, ← ite_and]
  exact if_congr Prod.mk_inj rfl rfl

theorem onSockets_eq_withParty (q n : Nat) (e : Socket) :
    onSockets (fun id => (q, id)) n items e
      = withParty q (fun id => if id < n then items id else []) e := by
  obtain ⟨b, y⟩ := e
  rw [withParty, ← ite_and, onSockets]
  by_cases h : b = q ∧ y < n
  · obtain ⟨rfl, hy⟩ := h
    rw [if_pos ⟨rfl, hy⟩, flatMap_alone (i := ⟨y, hy⟩), toOnly_self]
    intro id hid
    exact toOnly_ne _ fun he => hid (Fin.ext (Prod.mk.inj he).2.symm)
  · rw [if_neg h]
    refine List.flatMap_eq_nil_iff.mpr fun id _ => toOnly_ne _ fun he => h ?_
    obtain ⟨rfl, rfl⟩ := Prod.mk.inj he
    exact ⟨rfl, id.isLt⟩

variable (items) in
/-- A loop over some parties, on the first socket to each. -/
theorem flatMap_first {l : List Nat} (hl : l.Nodup) (e : Socket) :
    (l.flatMap fun q => toOnly (q, 0) (items q) e)
      = if e.1 ∈ l ∧ e.2 = 0 then items e.1 else [] := by
  obtain ⟨b, y⟩ := e
  have hround : ∀ q ∈ l, toOnly (q, 0) (items q) (b, y)
      = if b = q then if y = 0 then items b else [] else [] := by
    intro q _
    rw [toOnly_eq_withParty, withParty]
    by_cases hb : b = q
    · rw [if_pos hb, if_pos hb, hb]
    · rw [if_neg hb, if_neg hb]
  rw [List.flatMap_congr hround, flatMap_ite_eq hl b fun _ => if y = 0 then items b else [],
    ite_and]

end Sockets

/-! ## The scenario -/

namespace PsiSession

variable {G : Type*} [CommGroup G] {C : OprgCrypto G} {X : Type*} (s : PsiSession C X)

/-- The keys of party `p`: those it draws and those it gets. -/
def shares (p : Nat) : List (List Byte) :=
  sharesAfter s.numOfParties s.keys p (s.numOfParties - 1)

/-- What party `i + 2` sends in the end. -/
def blocks (i : Fin (s.numOfParties - 1)) : List (List Byte) :=
  s.followerRun (i + 2) (s.followerSet (i + 2) (s.oprg i).serverRes) (s.share (s.shares (i + 2)))

/-- The key of party `p` for party `q`. -/
def shareStream (p q id : Nat) : List (ℕ × SocketByte) :=
  if (1 ≤ p ∧ p < q ∧ q ≤ s.numOfParties) ∧ id = 0 then stamped 0 (s.keys p q) else []

/-- What goes to party `i + 2` after that: the points, and the matrices of socket `id`. -/
def leaderStream (i : Fin (s.numOfParties - 1)) (id : Nat) : List (ℕ × SocketByte) :=
  (if id = 0 then stamped 1 (s.oprg i).draws.pointsBlock else []) ++
    if id < s.commThreads then stamped 3 (streamOf (s.oprg i).clientThreads id) else []

/-- What comes from party `i + 2`: the keys, and the blocks. -/
def followerStream (i : Fin (s.numOfParties - 1)) (id : Nat) : List (ℕ × SocketByte) :=
  if id = 0 then stamped 2 (s.oprg i).draws.keysBlock ++ stamped 4 (s.blocks i).flatten else []

/-- What is sent from a socket of a party. -/
def stream (e : Nat × Socket) : List (ℕ × SocketByte) :=
  s.shareStream e.1 e.2.1 e.2.2 ++
    if e.1 = 1 then s.byParty s.leaderStream (fun _ => []) e.2.1 e.2.2
    else if e.2.1 = 1 then s.byParty s.followerStream (fun _ => []) e.1 e.2.2
    else []

/-- What a party ends with. -/
def result (p : Nat) : PartyData :=
  if p = 1 then .leader (s.shares 1) (s.byParty (fun i => (s.oprg i).clientRes) fun _ => 0)
    (s.byParty (fun i => s.blockLengths.splitLengths (s.blocks i).flatten) [])
  else if h : 2 ≤ p ∧ p ≤ s.numOfParties then
    .follower (s.shares p) (s.oprg ⟨p - 2, s.index_lt h⟩).serverRes
  else .other

theorem shares_eq {p : Nat} (h1 : 1 ≤ p) (hn : p ≤ s.numOfParties) :
    s.shares p = (List.range' (p + 1) (s.numOfParties - p)).map (s.keys p)
      ++ (List.range' 1 (p - 1)).map fun i => s.keys i p := by
  rw [shares, sharesAfter, Nat.min_eq_right (by omega),
    show s.numOfParties - 1 - (s.numOfParties - p) = p - 1 by omega, List.range'_eq_map_range,
    List.range'_eq_map_range, List.map_map, List.map_map]
  refine congrArg _ (List.map_congr_left fun k _ => ?_)
  rw [Function.comp_apply, Nat.add_comm 1 k]

theorem additiveSecretShare_plan {p : Nat} (h1 : 1 ≤ p) (hn : p ≤ s.numOfParties) :
    Plan 0 (s.additiveSecretShare p) (fun e => s.shareStream e.1 p e.2)
      (fun e => s.shareStream p e.1 e.2) (s.shares p) 1 := by
  have hsends := Plan.collect_now (t := 0) (l := List.range' (p + 1) (s.numOfParties - p))
    (f := fun i => (Proc.sendBytes (i, 0) (s.keys p i)).bind fun _ => .ret (s.keys p i))
    (fun _ _ => []) (fun i => toOnly (i, 0) (stamped 0 (s.keys p i))) (s.keys p) fun i _ =>
      (Plan.bind (Plan.sendBytes (Γ := Empty) 0 (i, 0) (s.keys p i))
        (.ret (s.keys p i) le_rfl)).congr (fun _ => rfl) fun _ => List.append_nil _
  have hrecvs := Plan.collect_now (t := 1) (l := List.range' 1 (p - 1))
    (f := fun i => Proc.receiveBytes (i, 0) keySize)
    (fun i => toOnly (i, 0) (stamped 0 (s.keys i p))) (fun _ _ => []) (fun i => s.keys i p)
    fun i _ => Plan.receiveBytes (Γ := Empty) Nat.one_pos (i, 0) (s.keys i p) (s.keys_length i p)
  have hall := Plan.bind (f := fun sent => (Proc.collect (fun i => Proc.receiveBytes (i, 0) keySize)
    (List.range' 1 (p - 1))).bind fun received => .ret (sent ++ received))
    hsends (Plan.map _ (hrecvs.mono (Nat.zero_le 1)))
  rw [s.shares_eq h1 hn]
  refine hall.congr (fun e => ?_) fun e => ?_
  · have he : e.1 ∈ List.range' 1 (p - 1) ↔ 1 ≤ e.1 ∧ e.1 < p ∧ p ≤ s.numOfParties := by
      rw [List.mem_range'_1]
      omega
    rw [List.flatMap_eq_nil_iff.mpr fun _ _ => rfl, List.nil_append,
      flatMap_first (fun i => stamped 0 (s.keys i p)) List.nodup_range', shareStream]
    exact if_congr (and_congr_left' he) rfl rfl
  · have he : e.1 ∈ List.range' (p + 1) (s.numOfParties - p) ↔
        1 ≤ p ∧ p < e.1 ∧ e.1 ≤ s.numOfParties := by
      rw [List.mem_range'_1]
      omega
    rw [List.flatMap_eq_nil_iff.mpr fun _ _ => rfl, List.append_nil,
      flatMap_first (fun i => stamped 0 (s.keys p i)) List.nodup_range', shareStream]
    exact if_congr (and_congr_left' he) rfl rfl

/-- A follower's strategy sends as much as the leader's asks for. -/
def BlocksFit : Prop := ∀ p, 2 ≤ p → p ≤ s.numOfParties → ∀ masks share,
  (s.followerRun p (s.followerSet p masks) share).flatten.length = s.blockLengths.sum

/-- The traffic of the leader's threads, one for each follower. -/
theorem flatMap_withParty (f : Fin (s.numOfParties - 1) → Nat → List (ℕ × SocketByte))
    (e : Socket) :
    ((List.finRange (s.numOfParties - 1)).flatMap fun i : Fin (s.numOfParties - 1) =>
        withParty ((i : Nat) + 2) (f i) e)
      = s.byParty f (fun _ => []) e.1 e.2 := by
  unfold byParty withParty
  split
  · next he =>
      rw [flatMap_alone (i := ⟨e.1 - 2, by omega⟩), if_pos (Nat.sub_add_cancel he.1).symm]
      exact fun i hi => if_neg fun hq => hi (Fin.ext (Nat.sub_eq_of_eq_add hq).symm)
  · next he =>
      refine List.flatMap_eq_nil_iff.mpr fun i _ => if_neg fun hq => he ?_
      have := i.isLt
      omega

theorem apart_withParty {n : Nat} (f : Fin n → Nat → List (ℕ × SocketByte)) :
    Traffic.Apart fun i : Fin n => withParty ((i : Nat) + 2) (f i) :=
  .of_owner (fun e => e.1 - 2) fun _ _ he => if_neg fun hq => he (Nat.sub_eq_of_eq_add hq)

/-- The leader, once it has its shares. -/
theorem runAsLeader_course (hfit : s.BlocksFit) :
    ∃ k, Course 1 (s.runAsLeader (s.shares 1))
      (fun e => s.byParty s.followerStream (fun _ => []) e.1 e.2)
      (fun e => s.byParty s.leaderStream (fun _ => []) e.1 e.2) (s.result 1) 5 k := by
  have hclient : ∀ i : Fin (s.numOfParties - 1), ∃ k,
      Course 1 ((s.oprg i).client (Γ := Empty) fun id => ((i : Nat) + 2, id))
        (withParty ((i : Nat) + 2) fun id =>
          if id = 0 then stamped 2 (s.oprg i).draws.keysBlock else [])
        (withParty ((i : Nat) + 2) (s.leaderStream i)) (s.oprg i).clientRes 3 k := by
    intro i
    have hsock : Function.Injective fun id : Nat => ((i : Nat) + 2, id) :=
      fun _ _ h => (Prod.mk.inj h).2
    obtain ⟨k, h⟩ := (s.oprg i).client_course (Γ := Empty) hsock 1
    refine ⟨k, h.congr (toOnly_eq_withParty _ _ _) fun e => ?_⟩
    rw [toOnly_eq_withParty, onSockets_eq_withParty, withParty_append]
    rfl
  have hblocks : ∀ i : Fin (s.numOfParties - 1), ∃ k,
      Course 5 (s.receiveBlocks (i + 2)).thread
        (withParty ((i : Nat) + 2) fun id =>
          if id = 0 then stamped 4 (s.blocks i).flatten else [])
        (fun _ => []) (s.blockLengths.splitLengths (s.blocks i).flatten) 5 k := by
    intro i
    obtain ⟨k, h⟩ := (Plan.receiveBlocks (Γ := Empty) (Nat.lt_succ_self 4) ((i : Nat) + 2, 0)
      (hfit (i + 2) (Nat.le_add_left 2 i) (by omega) (s.oprg i).serverRes
        (s.share (s.shares (i + 2))))).course
    exact ⟨k, h.congr (toOnly_eq_withParty _ _ _) fun _ => rfl⟩
  obtain ⟨k₁, hclients⟩ := Course.all (by decide) hclient (apart_withParty _) (apart_withParty _)
  obtain ⟨k₂, hreceive⟩ := Course.all le_rfl hblocks (apart_withParty _) apart_nil
  refine ⟨_, Course.congr (Course.bind hclients ((Course.map _ hreceive).mono (by decide)))
    (fun e => ?_) fun e => ?_⟩
  · rw [s.flatMap_withParty, s.flatMap_withParty]
    unfold byParty followerStream
    split
    · dsimp only
      split <;> rfl
    · rfl
  · rw [s.flatMap_withParty, List.flatMap_eq_nil_iff.mpr fun _ _ => rfl, List.append_nil]

/-- Party `i + 2`, once it has its shares. -/
theorem runAsFollower_course (hK : C.pk.Lossless) (i : Fin (s.numOfParties - 1)) :
    ∃ k, Course 2 (s.runAsFollower i (s.shares (i + 2))) (withParty 1 (s.leaderStream i))
      (withParty 1 (s.followerStream i)) (.follower (s.shares (i + 2)) (s.oprg i).serverRes) 4
      k := by
  have hsock : Function.Injective fun id : Nat => (1, id) := fun _ _ h => (Prod.mk.inj h).2
  obtain ⟨k₁, hserver⟩ := (s.oprg i).server_course (Γ := Empty) hK hsock (show 1 < 2 by decide)
    (show 2 ≤ 3 by decide)
  obtain ⟨k₂, hsend⟩ := (Plan.sendBlocks (Γ := Empty) 4 (1, 0) (s.blocks i)).course
  refine ⟨_, Course.congr (Course.bind hserver (Course.map _ hsend)) (fun e => ?_) fun e => ?_⟩
  · rw [List.append_nil, toOnly_eq_withParty, onSockets_eq_withParty, withParty_append]
    rfl
  · rw [toOnly_eq_withParty, toOnly_eq_withParty, withParty_append]
    unfold withParty followerStream
    split
    · dsimp only
      split <;> rfl
    · rfl

theorem byParty_self {α : Type*} (f : Fin (s.numOfParties - 1) → α) (default : α) {p : Nat}
    (h : 2 ≤ p ∧ p ≤ s.numOfParties) : s.byParty f default p = f ⟨p - 2, s.index_lt h⟩ :=
  dif_pos h

theorem byParty_one {α : Type*} (f : Fin (s.numOfParties - 1) → α) (default : α) :
    s.byParty f default 1 = default := dif_neg (by omega)

/-- **Every party has its course**, and what it gets is what the others send. -/
theorem run_course (hK : C.pk.Lossless) (hfit : s.BlocksFit) (p : Nat) :
    ∃ t t' k, Course t (s.run p) (fun e => s.stream (peerSocket (p, e)))
      (fun e => s.stream (p, e)) (s.result p) t' k := by
  by_cases h1 : p = 1
  · subst h1
    obtain ⟨k₁, hshare⟩ := (s.additiveSecretShare_plan le_rfl s.numOfParties_pos).course
    obtain ⟨k₂, hlead⟩ := s.runAsLeader_course hfit
    refine ⟨0, 5, _, Course.congr (Course.bind hshare hlead) (fun e => ?_) fun e => rfl⟩
    unfold stream peerSocket
    split
    · next he =>
        dsimp only at he ⊢
        rw [he, byParty_one, byParty_one]
    · rfl
  · by_cases hp : 2 ≤ p ∧ p ≤ s.numOfParties
    · obtain ⟨k₁, hshare⟩ := (s.additiveSecretShare_plan (by omega) hp.2).course
      obtain ⟨k₂, hfollow⟩ := s.runAsFollower_course hK ⟨p - 2, s.index_lt hp⟩
      dsimp only at hfollow
      rw [Nat.sub_add_cancel hp.1] at hfollow
      have hrun : s.run p = (s.additiveSecretShare p).thread.bind
          (s.runAsFollower ⟨p - 2, s.index_lt hp⟩) := by rw [run, if_neg h1, dif_pos hp]
      have hresult : s.result p = .follower (s.shares p)
          (s.oprg ⟨p - 2, s.index_lt hp⟩).serverRes := by rw [result, if_neg h1, dif_pos hp]
      rw [hrun, hresult]
      refine ⟨0, 4, _, Course.congr (Course.bind hshare (hfollow.mono (Nat.le_succ 1)))
        (fun e => ?_) fun e => ?_⟩
      · unfold stream peerSocket withParty
        dsimp only
        rw [byParty_self _ _ _ hp, if_neg h1]
      · unfold stream withParty
        dsimp only
        rw [byParty_self _ _ _ hp, if_neg h1]
    · have hrun : s.run p = .ret .other := by rw [run, if_neg h1, dif_neg hp]
      have hresult : s.result p = .other := by rw [result, if_neg h1, dif_neg hp]
      rw [hrun, hresult]
      refine ⟨0, 0, 0, (Course.ret _ le_rfl).congr (fun e => ?_) fun e => ?_⟩
      · unfold stream shareStream peerSocket
        dsimp only
        rw [if_neg (by omega), byParty, dif_neg hp, if_neg h1, ite_self]
        rfl
      · unfold stream shareStream
        dsimp only
        rw [if_neg (by omega), if_neg h1, byParty, dif_neg hp, ite_self]
        rfl

/-- The run of all parties. -/
def scenario (hK : C.pk.Lossless) (hfit : s.BlocksFit) :
    Scenario Nat Socket SocketByte PartyData where
  prog := s.run
  peer := peerSocket
  peer_peer := fun _ => rfl
  stream := s.stream
  result := s.result
  course := s.run_course hK hfit
  parties := Finset.Icc 1 s.numOfParties
  idle := fun p hp => by
    rw [Finset.mem_Icc] at hp
    have := s.numOfParties_pos
    exact ⟨.other, by rw [run, if_neg (by omega), dif_neg (by omega)]⟩

/-- The shares of a bin cancel. -/
theorem sum_share {b : Nat} (hb : b < s.numOfBins) : ∑ p ∈ Finset.Icc 1 s.numOfParties,
    row s.maskSizeInBytes (s.share (s.shares p)) b = 0 := by
  funext j
  have hlt : b * s.maskSizeInBytes + j < s.maskSizeInBytes * s.numOfBins := by
    rw [Nat.mul_comm s.maskSizeInBytes]
    exact row_cell_lt hb j.isLt
  rw [Finset.sum_apply, Pi.zero_apply, ← sum_padShare (Finset.Icc 1 s.numOfParties) fun a b' =>
    s.prg (s.keys a b') (s.maskSizeInBytes * s.numOfBins) (b * s.maskSizeInBytes + j)]
  refine Finset.sum_congr rfl fun p hp => ?_
  exact secretShare_eq_padShare s.prg s.keys (Finset.mem_Icc.mp hp) hlt

end PsiSession

/-! ## What a run leads to -/

/-- Tables that the parties of a session can end with: those of the leader and party `p` are
values of one function of a bin and a value. -/
structure PsiOutcome {G : Type*} [CommGroup G] {C : OprgCrypto G} {X : Type*}
    (s : PsiSession C X) where
  oprg : Nat → Nat → (Fin (ceilDivide s.elebitlen 8) → Byte) → Fin s.maskSizeInBytes → Byte
  leaderResults : Nat → Buf Byte
  masks : Nat → Buf Byte
  client : ∀ p, 2 ≤ p → p ≤ s.numOfParties → ClientResults (oprg p) s.numOfBins
    s.cuckoo.out.hashTable s.cuckoo.out.nelesinbin (leaderResults p)
  server : ∀ p, 2 ≤ p → p ≤ s.numOfParties → ServerResults (oprg p) s.numOfBins
    (s.simple p).resBins (s.simple p).nelesinbin (masks p)

section Outcome

variable {G : Type*} [CommGroup G] {C : OprgCrypto G} {X : Type*} {s : PsiSession C X}

/-- All that follower `p` sends to the leader in the end. -/
def PsiOutcome.sent (o : PsiOutcome s) (p : Nat) : List Byte :=
  (s.followerRun p (s.followerSet p (o.masks p)) (s.share (s.shares p))).flatten

/-- A party has ended with the tables of `o`. -/
inductive PsiOutcome.Ends (o : PsiOutcome s) : Nat → PartyData → Prop where
  | leader (leaderResults : Nat → Buf Byte) (received : Nat → List (List Byte)) :
      (∀ p, 2 ≤ p → p ≤ s.numOfParties → leaderResults p = o.leaderResults p ∧
        received p = s.blockLengths.splitLengths (o.sent p)) →
      o.Ends 1 (.leader (s.shares 1) leaderResults received)
  | follower (p : Nat) (masks : Buf Byte) : 2 ≤ p → p ≤ s.numOfParties → masks = o.masks p →
      o.Ends p (.follower (s.shares p) masks)
  | other (p : Nat) : ¬ (1 ≤ p ∧ p ≤ s.numOfParties) → o.Ends p .other

/-- The tables of the leader and party `i + 2`. -/
theorem PsiSession.exists_tables (s : PsiSession C X) (hK : C.pk.Lossless)
    (i : Fin (s.numOfParties - 1)) :
    ∃ F : Nat → (Fin (ceilDivide s.elebitlen 8) → Byte) → Fin s.maskSizeInBytes → Byte,
      ClientResults F s.numOfBins s.cuckoo.out.hashTable s.cuckoo.out.nelesinbin
        (s.oprg i).clientRes ∧
      ServerResults F s.numOfBins (s.simple (i + 2)).resBins (s.simple (i + 2)).nelesinbin
        (s.oprg i).serverRes := by
  obtain ⟨rows, hclient, hserver⟩ := ((s.oprg i).results hK).2
  refine ⟨(s.oprg i).value rows, fun b hb hfull => ?_, fun b hb u hu => ?_⟩
  · exact (hclient b hb hfull).trans (congrArg _ (row_ofRows _ b))
  · exact (hserver b hb u hu).trans (congrArg _ (row_ofRows _ _))

/-- What everyone returns are the tables of one outcome. -/
theorem PsiSession.exists_outcome (s : PsiSession C X) (hK : C.pk.Lossless) :
    ∃ o : PsiOutcome s, ∀ p, o.Ends p (s.result p) := by
  choose F hclient hserver using s.exists_tables hK
  refine ⟨{ oprg := s.byParty F fun _ _ => 0
            leaderResults := s.byParty (fun i => (s.oprg i).clientRes) fun _ => 0
            masks := s.byParty (fun i => (s.oprg i).serverRes) fun _ => 0
            client := fun p h2 hn => ?_
            server := fun p h2 hn => ?_ }, fun p => ?_⟩
  · rw [s.byParty_self _ _ ⟨h2, hn⟩, s.byParty_self _ _ ⟨h2, hn⟩]
    exact hclient ⟨p - 2, by omega⟩
  · rw [s.byParty_self _ _ ⟨h2, hn⟩, s.byParty_self _ _ ⟨h2, hn⟩]
    have h := hserver ⟨p - 2, by omega⟩
    dsimp only at h
    rwa [Nat.sub_add_cancel h2] at h
  · have hpos := s.numOfParties_pos
    by_cases h1 : p = 1
    · subst h1
      refine .leader _ _ fun p h2 hn => ⟨rfl, ?_⟩
      rw [s.byParty_self _ _ ⟨h2, hn⟩, PsiSession.blocks, PsiOutcome.sent]
      dsimp only
      rw [s.byParty_self _ _ ⟨h2, hn⟩, Nat.sub_add_cancel h2]
    · rw [PsiSession.result, if_neg h1]
      split
      · next hp =>
          exact .follower p _ hp.1 hp.2
            (s.byParty_self (fun i => (s.oprg i).serverRes) (fun _ => 0) hp).symm
      · next hp => exact .other p (by omega)

/-- And there is a run in which all have returned. -/
theorem PsiSession.exists_returned (s : PsiSession C X) (hK : C.pk.Lossless)
    (hfit : s.BlocksFit) :
    ∃ c : Conf Nat Socket SocketByte PartyData,
      Conf.Reachable peerSocket (fun _ => True) ⟨s.run, fun _ => []⟩ c ∧
      ∀ p, c.loc p = .ret (s.result p) := by
  obtain ⟨c, hreach, hfin⟩ := (s.scenario hK hfit).exists_finished .refl fun _ _ _ => trivial
  refine ⟨c, hreach, fun p => ?_⟩
  obtain ⟨data, hloc⟩ := hfin p
  exact hloc.trans (congrArg _ ((s.scenario hK hfit).eq_result hreach hloc))

/-- The tables of an outcome that all have ended with are those of the OPRGs. -/
theorem PsiOutcome.tables_eq {o : PsiOutcome s} (h : ∀ p, o.Ends p (s.result p))
    (i : Fin (s.numOfParties - 1)) :
    o.leaderResults (i + 2) = (s.oprg i).clientRes ∧ o.masks (i + 2) = (s.oprg i).serverRes := by
  have hi : 2 ≤ (i : Nat) + 2 ∧ (i : Nat) + 2 ≤ s.numOfParties := by omega
  constructor
  · have hleader := h 1
    rw [PsiSession.result, if_pos rfl] at hleader
    cases hleader with
    | leader _ _ hall => exact (hall _ hi.1 hi.2).1.symm.trans (s.byParty_self _ _ hi)
  · have hfollower := h (i + 2)
    rw [PsiSession.result, if_neg (by omega), dif_pos hi] at hfollower
    cases hfollower with
    | follower _ _ _ _ hmasks => exact hmasks.symm

end Outcome

/-! ## A small session -/

/-- A cipher and hashes that do not do much: a mask shows its bin. -/
def smallOprg : OprgCrypto (Multiplicative (ZMod 1009)) where
  pk := smallPk
  encrypt := fun key i k => ofRow key 0 + ofNatLE (i + k) 0
  maskHash := fun x _ => x 0
  fixedKeyAes := fun _ k => ofNatLE (k + 16) 0
  hash := fun _ l _ => l.headD 0

/-- The hashes of an element of one byte, the second and the third with the same bin. -/
def smallHash (x : Fin 1 → Byte) : Hashed (Fin (ceilDivide 8 8) → Byte) :=
  ⟨fun j => ((x 0).toBits.toNat + min j 1) % 4, fun _ => x 0⟩

/-- The elements 0 and 1 of the leader, and 1 and `second` of the follower. -/
def smallElements (second p i : Nat) : Fin 1 → Byte :=
  fun _ => ofNatLE (if p = 1 then i else [1, second].getD i 0) 0

/-- Two parties with two elements each. The follower sends its masks. -/
def smallSession (second : Nat) : PsiSession smallOprg (Fin 1 → Byte) where
  numOfParties := 2
  setSize := 2
  numOfBins := 4
  maskSizeInBytes := 1
  maxBinSize := 2
  commThreads := 1
  elebitlen := 8
  elements := smallElements second
  hashElement := smallHash
  dummy := fun _ => 0
  numCores := fun _ => 2
  prg := fun key _ i => key.getD i 0
  keys := fun _ _ => List.replicate keySize (ofNatLE 5 0)
  draws := fun _ => smallDraws
  entries := fun _ => ⟨0, fun _ => 0, fun _ => 0⟩
  freshInfo := fun _ => ⟨0, 0, 0⟩
  keyMtx := fun _ _ => 0
  keySeeds := fun _ _ => 0
  leaderBuf := fun _ _ => 0
  masksBuf := fun _ _ => 0
  leaderOrder := fun _ calls => calls
  followerOrder := fun _ calls => calls.reverse
  cuckoo := (cuckooHashing (fun _ => 0) (fun i => smallHash (smallElements second 1 i)) 2 4 2
    fun _ => ⟨0, fun _ => 0, fun _ => 0⟩).get rfl
  followerRun := fun _ set _ => [sendBytes set.masks 6]
  blockLengths := [6]
  numOfParties_pos := Nat.two_pos
  numCores_pos := fun _ => Nat.two_pos
  address_lt := fun _ _ _ => Nat.mod_lt _ (Nat.zero_lt_succ 3)
  keys_length := fun _ _ => List.length_replicate
  leaderOrder_perm := fun _ _ => .refl _
  followerOrder_perm := fun _ calls => calls.reverse_perm
  cuckoo_run := (Option.some_get _).symm
  tasks_inside := fun _ _ _ => Nat.le_succ 1
  numOTs_lt := Nat.lt_of_sub_eq_succ rfl

/-- The mask of a bin. -/
def smallMask (b : Nat) : Fin 1 → Byte := fun _ => ofNatLE b 0 + ofNatLE 16 0

/-- Whatever the value, and whatever the base OTs. -/
theorem smallSession_value (second : Nat) (i : Fin ((smallSession second).numOfParties - 1))
    (rows : Nat → Fin codeWordBytes → Byte) {b : Nat} (hb : b < 4)
    (v : Fin (ceilDivide 8 8) → Byte) :
    ((smallSession second).oprg i).value rows b v = smallMask b := by
  have hots : otsDone (4 * ceilDivide 8 8) 1 = 4 := otsDone_one 4
  have hmask : ∀ mask, otMask smallOprg.ot 1 b mask = fun _ => ofNatLE b 0 := fun mask =>
    funext fun j => by
      obtain rfl : j = 0 := Subsingleton.elim j 0
      rfl
  have hdiv : ∀ ot, ot / ceilDivide 8 8 = ot := Nat.div_one
  have hsum : MultiPartyPSI.oprg smallOprg.ot smallDraws.choices rows 1
      (otsDone (4 * ceilDivide 8 8) 1) (ceilDivide 8 8) b v = fun _ => ofNatLE b 0 := by
    rw [hots, MultiPartyPSI.oprg, Finset.sum_eq_single b, if_pos (hdiv b), hmask]
    · exact fun ot _ hne => if_neg fun h => hne ((hdiv ot).symm.trans h)
    · exact fun hno => absurd (Finset.mem_range.mpr hb) hno
  refine (congrArg smallOprg.crf hsum).trans (funext fun j => ?_)
  obtain rfl : j = 0 := Subsingleton.elim j 0
  exact add_comm (ofNatLE 16 0) (ofNatLE b 0)

section Small

variable (second : Nat)

/-- The OPRG of the two parties. -/
def smallPair : OprgPair smallOprg := (smallSession second).oprg ⟨0, Nat.one_pos⟩

/-- The leader has the masks of its bins 0 and 1. -/
theorem row_smallPair_clientRes {t : Nat} (ht : t < 2) :
    row 1 (smallPair second).clientRes t = smallMask t := by
  obtain ⟨rows, hclient, -⟩ := ((smallPair second).results smallPk_lossless).2
  have hplace : ∀ t < 2, binToResult 4 (smallPair 0).clientBins t = t ∧
      0 < (smallPair 0).clientBins t := by
    decide
  obtain ⟨hpos, hfull⟩ := hplace t ht
  have hb : t < 4 := by omega
  have hrow : row 1 (smallPair second).clientRes (binToResult 4 (smallPair 0).clientBins t)
      = smallMask t := (hclient t hb hfull).trans (smallSession_value second _ rows hb _)
  rwa [hpos] at hrow

/-- The follower has those of its entries. -/
theorem row_smallPair_serverRes {b u : Nat} (hb : b < 4)
    (hu : u < (smallPair second).serverBins b) :
    row 1 (smallPair second).serverRes
      (startingPosForBin 4 (smallPair second).serverBins b + u) = smallMask b := by
  obtain ⟨rows, -, hserver⟩ := ((smallPair second).results smallPk_lossless).2
  exact (hserver b hb u hu).trans (smallSession_value second _ rows hb _)

/-- With its share. -/
def smallShared (b : Nat) : Fin 1 → Byte := smallMask b + fun _ => ofNatLE 5 0

/-- The follower's masks, the shares of their bins added. -/
def smallMasked : Buf Byte :=
  xorMasks (smallPair second).serverRes 1
    ((smallSession second).share ((smallSession second).shares 2)) 4 (smallPair second).serverBins

theorem row_smallMasked {b u : Nat} (hb : b < 4) (hu : u < (smallPair second).serverBins b) :
    row 1 (smallMasked second) (binStart (smallPair second).serverBins b + u) = smallShared b := by
  have hshare : ∀ b < 4, row 1 ((smallSession 0).share ((smallSession 0).shares 2)) b
      = fun _ => ofNatLE 5 0 := by
    decide
  have hmask := row_smallPair_serverRes second hb hu
  rw [startingPosForBin_apply 4 _ hb] at hmask
  rw [smallMasked, row_xorMasks _ _ _ hb hu, binStart, hmask]
  exact congrArg _ (hshare b hb)

end Small

end MultiPartyPSI
