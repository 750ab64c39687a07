import MarketPeer.Paxos.Moves

/-!
# Acceptors keep their promises

The rumors that an acceptor has sent at its current step are bounded by its state,
and a promise tells the last vote before it: no vote below the promised ballot
comes later.
-/

namespace MarketPeer.Paxos

variable {N : Nat}

/-! ## The rumors of a world -/

/-- Rumor `k` is `msg` from `a`. -/
def World.At (w : World N) (k : Nat) (a : Fin N) (msg : Msg N) : Prop := w.sent[k]? = some ⟨a, msg⟩

def World.Sent (w : World N) (a : Fin N) (msg : Msg N) : Prop := ∃ k, w.At k a msg

section Commit

variable (w : World N) (i : Fin N) (e : Effect N)

@[simp] theorem commit_peers_self : (w.commit i e).peers i = e.peer := Function.update_self ..

theorem commit_peers_of_ne {a : Fin N} (h : a ≠ i) : (w.commit i e).peers a = w.peers a :=
  Function.update_of_ne h ..

/-- A rumor of the new world is an old one, or the broadcast of the step in the next place. -/
theorem at_commit (k : Nat) (a : Fin N) (msg : Msg N) : (w.commit i e).At k a msg ↔
    w.At k a msg ∨ (k = w.sent.length ∧ a = i ∧ e.broadcast = some msg) := by
  unfold World.At World.commit
  rcases Nat.lt_or_ge k w.sent.length with hlt | hge
  · rw [List.getElem?_append_left hlt]
    constructor
    · exact Or.inl
    · rintro (h | ⟨rfl, -, -⟩)
      · exact h
      · omega
  · rw [List.getElem?_append_right hge, List.getElem?_eq_none hge]
    cases e.broadcast with
    | none => simp
    | some m =>
      rw [Option.toList_some, List.map_cons, List.map_nil, List.getElem?_singleton]
      split_ifs with hk
      · have hk' : k = w.sent.length := by omega
        simp only [Option.some.injEq, Rumor.mk.injEq, hk', true_and, false_or]
        rw [eq_comm (a := a)]
      · have hk' : k ≠ w.sent.length := by omega
        simp [hk']

theorem sent_commit (a : Fin N) (msg : Msg N) :
    (w.commit i e).Sent a msg ↔ w.Sent a msg ∨ (a = i ∧ e.broadcast = some msg) := by
  unfold World.Sent
  simp only [at_commit, exists_or, exists_eq_left]

variable {w i e} {k : Nat} {a : Fin N} {msg : Msg N}

theorem World.At.commit (h : w.At k a msg) : (w.commit i e).At k a msg :=
  (at_commit w i e k a msg).mpr (Or.inl h)

theorem World.Sent.commit (h : w.Sent a msg) : (w.commit i e).Sent a msg :=
  (sent_commit w i e a msg).mpr (Or.inl h)

end Commit

/-! ## The invariant of an acceptor -/

structure AcceptorOk (w : World N) (a : Fin N) : Prop where
  votes : ∀ s b v, w.Sent a (.accept s b v) →
    s ≤ (w.peers a).step ∧ (s = (w.peers a).step → b ≤ (w.peers a).acceptedID)
  promises : ∀ j s b m x, w.Sent a (.promise j s b m x) →
    s ≤ (w.peers a).step ∧ (s = (w.peers a).step → b ≤ (w.peers a).proposalMaxID)
  ordered : (w.peers a).acceptedID ≤ (w.peers a).proposalMaxID
  last : (w.peers a).acceptedID = 0 ∨ ∃ v, (w.peers a).acceptedValue = some v ∧
    w.Sent a (.accept (w.peers a).step (w.peers a).acceptedID v)
  honest : ∀ j s b m x, w.Sent a (.promise j s b m x) →
    m < b ∧ (m = 0 ∨ ∃ v, x = some v ∧ w.Sent a (.accept s m v)) ∧
      ∀ b' v, w.Sent a (.accept s b' v) → b' < b → b' ≤ m
  promiseOnce : ∀ k k' j j' s b m m' x x', w.At k a (.promise j s b m x) →
    w.At k' a (.promise j' s b m' x') → k = k'

theorem acceptorOk_init (cfg : Config N) (a : Fin N) : AcceptorOk (World.init cfg) a where
  votes := by simp [World.init, World.Sent, World.At]
  promises := by simp [World.init, World.Sent, World.At]
  ordered := Nat.le_refl 0
  last := Or.inl rfl
  honest := by simp [World.init, World.Sent, World.At]
  promiseOnce := by simp [World.init, World.At]

theorem AcceptorOk.same {w w' : World N} {a : Fin N} (h : AcceptorOk w a)
    (hstep : (w'.peers a).step = (w.peers a).step)
    (hmax : (w'.peers a).proposalMaxID = (w.peers a).proposalMaxID)
    (hid : (w'.peers a).acceptedID = (w.peers a).acceptedID)
    (hvalue : (w'.peers a).acceptedValue = (w.peers a).acceptedValue)
    (hpromise : ∀ k j s b m x, w'.At k a (.promise j s b m x) ↔ w.At k a (.promise j s b m x))
    (haccept : ∀ s b v, w'.Sent a (.accept s b v) ↔ w.Sent a (.accept s b v)) : AcceptorOk w' a where
  votes s b v hv := by
    rw [hstep, hid]
    exact h.votes s b v ((haccept s b v).mp hv)
  promises j s b m x hp := by
    obtain ⟨k, hp⟩ := hp
    rw [hstep, hmax]
    exact h.promises j s b m x ⟨k, (hpromise k j s b m x).mp hp⟩
  ordered := by
    rw [hmax, hid]
    exact h.ordered
  last := by
    rw [hstep, hid, hvalue]
    simp only [haccept]
    exact h.last
  honest j s b m x hp := by
    obtain ⟨k, hp⟩ := hp
    simp only [haccept]
    exact h.honest j s b m x ⟨k, (hpromise k j s b m x).mp hp⟩
  promiseOnce k k' j j' s b m m' x x' hk hk' :=
    h.promiseOnce k k' j j' s b m m' x x' ((hpromise k j s b m x).mp hk) ((hpromise k' j' s b m' x').mp hk')

section Step

variable {w : World N} {i : Fin N}

theorem AcceptorOk.other {e : Effect N} {a : Fin N} (h : AcceptorOk w a) (ha : a ≠ i) :
    AcceptorOk (w.commit i e) a := by
  have hpeer := commit_peers_of_ne w i e ha
  apply h.same
  · rw [hpeer]
  · rw [hpeer]
  · rw [hpeer]
  · rw [hpeer]
  · intro k j s b m x
    simp [at_commit, ha]
  · intro s b v
    simp [sent_commit, ha]

/-- A step of the peer that is not one of its acceptor. -/
theorem AcceptorOk.quiet {e : Effect N} (h : AcceptorOk w i)
    (hstep : e.peer.step = (w.peers i).step) (hmax : e.peer.proposalMaxID = (w.peers i).proposalMaxID)
    (hid : e.peer.acceptedID = (w.peers i).acceptedID)
    (hvalue : e.peer.acceptedValue = (w.peers i).acceptedValue)
    (hpromise : ∀ j s b m x, e.broadcast ≠ some (.promise j s b m x))
    (haccept : ∀ s b v, e.broadcast ≠ some (.accept s b v)) : AcceptorOk (w.commit i e) i := by
  apply h.same
  · rw [commit_peers_self, hstep]
  · rw [commit_peers_self, hmax]
  · rw [commit_peers_self, hid]
  · rw [commit_peers_self, hvalue]
  · intro k j s b m x
    simp [at_commit, hpromise]
  · intro s b v
    simp [sent_commit, haccept]

/-- The promise is above all earlier ones and all votes, and the last vote is in it. -/
theorem AcceptorOk.promised {id : Nat} {source : Fin N} {processed : List Nat} (h : AcceptorOk w i)
    (hid : (w.peers i).proposalMaxID < id) :
    AcceptorOk (w.commit i
      ⟨{ w.peers i with processed := processed, proposalMaxID := id },
        some (.promise source (w.peers i).step id (w.peers i).acceptedID (w.peers i).acceptedValue),
        none, none⟩) i where
  votes s b v hv := by
    simp only [sent_commit, Option.some.injEq, reduceCtorEq, and_false, or_false] at hv
    rw [commit_peers_self]
    exact h.votes s b v hv
  promises j s b m x hp := by
    rw [sent_commit] at hp
    rw [commit_peers_self]
    rcases hp with hp | ⟨-, hp⟩
    · have hold := h.promises j s b m x hp
      exact ⟨hold.1, fun hs => Nat.le_trans (hold.2 hs) (Nat.le_of_lt hid)⟩
    · simp only [Option.some.injEq, Msg.promise.injEq] at hp
      obtain ⟨-, rfl, rfl, -, -⟩ := hp
      exact ⟨Nat.le_refl _, fun _ => Nat.le_refl _⟩
  ordered := by
    rw [commit_peers_self]
    exact Nat.le_trans h.ordered (Nat.le_of_lt hid)
  last := by
    rw [commit_peers_self]
    simp only [sent_commit, Option.some.injEq, reduceCtorEq, and_false, or_false]
    exact h.last
  honest j s b m x hp := by
    simp only [sent_commit, Option.some.injEq, reduceCtorEq, and_false, or_false] at hp ⊢
    rcases hp with hp | ⟨-, hp⟩
    · exact h.honest j s b m x hp
    · rw [Msg.promise.injEq] at hp
      obtain ⟨-, rfl, rfl, rfl, rfl⟩ := hp
      refine ⟨Nat.lt_of_le_of_lt h.ordered hid, h.last, ?_⟩
      intro b' v hv _
      exact (h.votes _ b' v hv).2 rfl
  promiseOnce k k' j j' s b m m' x x' hk hk' := by
    -- A second promise of the ballot would be above the maximum that it raised.
    have hnew : ∀ k j m x, w.At k i (.promise j s b m x) → s = (w.peers i).step → b ≠ id := by
      intro k j m x hk hs hb
      have hle := (h.promises j s b m x ⟨k, hk⟩).2 hs
      omega
    rw [at_commit] at hk hk'
    simp only [Option.some.injEq, Msg.promise.injEq] at hk hk'
    rcases hk with hk | ⟨rfl, -, -, hs, hb, -⟩
    · rcases hk' with hk' | ⟨rfl, -, -, hs, hb, -⟩
      · exact h.promiseOnce k k' j j' s b m m' x x' hk hk'
      · exact absurd hb.symm (hnew k j m x hk hs.symm)
    · rcases hk' with hk' | ⟨rfl, -⟩
      · exact absurd hb.symm (hnew k' j' m' x' hk' hs.symm)
      · rfl

/-- The vote is in the highest ballot that was promised, so no promise was for a higher one. -/
theorem AcceptorOk.accepted {value : PaxosValue} {processed : List Nat} (h : AcceptorOk w i) :
    AcceptorOk (w.commit i
      ⟨{ w.peers i with
          processed := processed, acceptedID := (w.peers i).proposalMaxID, acceptedValue := some value },
        some (.accept (w.peers i).step (w.peers i).proposalMaxID value), none, none⟩) i where
  votes s b v hv := by
    rw [sent_commit] at hv
    rw [commit_peers_self]
    rcases hv with hv | ⟨-, hv⟩
    · have hold := h.votes s b v hv
      exact ⟨hold.1, fun hs => Nat.le_trans (hold.2 hs) h.ordered⟩
    · simp only [Option.some.injEq, Msg.accept.injEq] at hv
      obtain ⟨rfl, rfl, -⟩ := hv
      exact ⟨Nat.le_refl _, fun _ => Nat.le_refl _⟩
  promises j s b m x hp := by
    simp only [sent_commit, Option.some.injEq, reduceCtorEq, and_false, or_false] at hp
    rw [commit_peers_self]
    exact h.promises j s b m x hp
  ordered := by
    rw [commit_peers_self]
  last := by
    rw [commit_peers_self]
    exact Or.inr ⟨value, rfl, (sent_commit ..).mpr (Or.inr ⟨rfl, rfl⟩)⟩
  honest j s b m x hp := by
    simp only [sent_commit, Option.some.injEq, reduceCtorEq, and_false, or_false, Msg.accept.injEq] at hp ⊢
    obtain ⟨hlt, hlast, hbelow⟩ := h.honest j s b m x hp
    refine ⟨hlt, ?_, ?_⟩
    · rcases hlast with hm | ⟨v, hx, hv⟩
      · exact Or.inl hm
      · exact Or.inr ⟨v, hx, Or.inl hv⟩
    · rintro b' v (hv | ⟨-, rfl, rfl, -⟩) hb'
      · exact hbelow b' v hv hb'
      · have hle := (h.promises j _ b m x hp).2 rfl
        omega
  promiseOnce k k' j j' s b m m' x x' hk hk' := by
    simp only [at_commit, Option.some.injEq, reduceCtorEq, and_false, or_false] at hk hk'
    exact h.promiseOnce k k' j j' s b m m' x x' hk hk'

theorem AcceptorOk.advanced {paxosID : Nat} {p' : Peer} (h : AcceptorOk w i)
    (hadv : Advanced paxosID (w.peers i) p') : AcceptorOk (w.commit i ⟨p', none, none, none⟩) i where
  votes s b v hv := by
    simp only [sent_commit, reduceCtorEq, and_false, or_false] at hv
    have hold := (h.votes s b v hv).1
    rw [commit_peers_self, hadv.step]
    exact ⟨by omega, by omega⟩
  promises j s b m x hp := by
    simp only [sent_commit, reduceCtorEq, and_false, or_false] at hp
    have hold := (h.promises j s b m x hp).1
    rw [commit_peers_self, hadv.step]
    exact ⟨by omega, by omega⟩
  ordered := by
    rw [commit_peers_self, hadv.acceptedID]
    exact Nat.zero_le _
  last := by
    rw [commit_peers_self]
    exact Or.inl hadv.acceptedID
  honest j s b m x hp := by
    simp only [sent_commit, reduceCtorEq, and_false, or_false] at hp ⊢
    exact h.honest j s b m x hp
  promiseOnce k k' j j' s b m m' x x' hk hk' := by
    simp only [at_commit, reduceCtorEq, and_false, or_false] at hk hk'
    exact h.promiseOnce k k' j j' s b m m' x x' hk hk'

theorem acceptorOk_step {cfg : Config N} {e : Effect N} (hdoes : Does cfg w.sent i (w.peers i) e)
    (h : ∀ a, AcceptorOk w a) (a : Fin N) : AcceptorOk (w.commit i e) a := by
  by_cases ha : a = i
  · subst ha
    cases hdoes with
    | idle p' msg hframe hmsg =>
      refine (h a).quiet hframe.step hframe.proposalMaxID hframe.acceptedID hframe.acceptedValue ?_ ?_
      · intro j s b m x hb
        exact tlc_only hmsg hb (by simp)
      · intro s b v hb
        exact tlc_only hmsg hb (by simp)
    | promised k o source id hsent hid => exact (h a).promised hid
    | accepted k o value hk hsent => exact (h a).accepted
    | advanced p' hadv => exact (h a).advanced hadv
    | _ => exact (h a).quiet rfl rfl rfl rfl (by simp) (by simp)
  · exact (h a).other ha

end Step

end MarketPeer.Paxos
