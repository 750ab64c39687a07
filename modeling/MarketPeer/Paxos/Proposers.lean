import MarketPeer.Lib.Counting
import MarketPeer.Paxos.Acceptors

/-!
# Proposers repeat the last vote

A proposer has its own ballots. It takes the value of the highest vote that a
promise told it, and a promise is used for one proposal only. Hence a ballot has
one proposal.
-/

namespace MarketPeer.Paxos

variable {N : Nat}

/-! ## The calls of `propose` -/

def FromRumor (w : World N) (j : Fin N) (c : Promise) : Prop :=
  ∃ a, w.At c.rumor a (.promise j c.step c.id c.acceptedID c.acceptedValue)

structure RoutineOk (w : World N) (j : Fin N) (t : Routine) : Prop where
  reached : (w.peers j).Reached t.step (t.highestAcceptedID + 1)
  read : ∀ c ∈ t.read, c.step = t.step ∧ c.acceptedID ≤ t.highestAcceptedID ∧ FromRumor w j c
  value : t.highestAcceptedID = 0 ∨ ∃ a, w.Sent a (.accept t.step t.highestAcceptedID t.proposedValue)

structure ProposerOk (cfg : Config N) (w : World N) (j : Fin N) : Prop where
  positive : 1 ≤ (w.peers j).proposalID
  residue : ((w.peers j).proposalID - 1) % N = cfg.paxosID j - 1
  prepares : ∀ a s b, w.Sent a (.prepare s b j) → (w.peers j).Reached s b
  asked : ∀ a s b m x, w.Sent a (.promise j s b m x) → (w.peers j).Reached s b
  channel : ∀ c ∈ (w.peers j).promiseCh, c.step = (w.peers j).step ∧ FromRumor w j c
  routines : ∀ t ∈ (w.peers j).routines, RoutineOk w j t

theorem proposerOk_init (cfg : Config N) (j : Fin N) : ProposerOk cfg (World.init cfg) j where
  positive := (cfg.inRange j).1
  residue := by
    have hrange := cfg.inRange j
    exact Nat.mod_eq_of_lt (show cfg.paxosID j - 1 < N by omega)
  prepares := by simp [World.init, World.Sent, World.At]
  asked := by simp [World.init, World.Sent, World.At]
  channel := by simp [World.init, Peer.init]
  routines := by simp [World.init, Peer.init]

section Routine

variable {w : World N} {j : Fin N} {t t' : Routine}

theorem Peer.Reached.mono {p : Peer} {s b b' : Nat} (h : p.Reached s b) (hle : b' ≤ b) : p.Reached s b' :=
  ⟨h.1, fun hs => Nat.le_trans hle (h.2 hs)⟩

theorem RoutineOk.move (h : RoutineOk w j t) (hmove : RoutineMove t t') : RoutineOk w j t' := by
  obtain ⟨hstep, hread, ⟨hhigh, hvalue⟩ | ⟨hhigh, hnil⟩⟩ := hmove
  · refine ⟨?_, ?_, ?_⟩
    · rw [hstep, hhigh]
      exact h.reached
    · intro c hc
      rw [hstep, hhigh]
      rcases hread with hread | hread
      · exact h.read c (hread ▸ hc)
      · simp [hread] at hc
    · rw [hstep, hhigh, hvalue]
      exact h.value
  · refine ⟨?_, by simp [hnil], Or.inl hhigh⟩
    rw [hstep, hhigh]
    exact h.reached.mono (by omega)

/-- A promise tells a vote below the ballot that it was asked for. -/
theorem RoutineOk.readPromise {c : Promise} (h : RoutineOk w j t) (hacceptors : ∀ a, AcceptorOk w a)
    (hasked : ∀ a s b m x, w.Sent a (.promise j s b m x) → (w.peers j).Reached s b)
    (hc : FromRumor w j c) (hcstep : c.step = t.step) (hread : RoutineRead t t' c) : RoutineOk w j t' := by
  obtain ⟨a, hat⟩ := hc
  obtain ⟨hlt, hlast, -⟩ := (hacceptors a).honest _ _ _ _ _ ⟨c.rumor, hat⟩
  have hreached := hasked a _ _ _ _ ⟨c.rumor, hat⟩
  have hmem : ∀ d ∈ t'.read, d ∈ t.read ∨ d = c := by
    intro d hd
    rw [hread.read, List.mem_append, List.mem_singleton] at hd
    exact hd
  rcases hread.value with ⟨hle, hhigh, hvalue⟩ | ⟨hgt, hhigh, hvalue⟩
  · refine ⟨?_, ?_, ?_⟩
    · rw [hread.step, hhigh]
      exact h.reached
    · intro d hd
      rw [hread.step, hhigh]
      rcases hmem d hd with hd | rfl
      · exact h.read d hd
      · exact ⟨hcstep, hle, a, hat⟩
    · rw [hread.step, hhigh, hvalue]
      exact h.value
  · refine ⟨?_, ?_, ?_⟩
    · rw [hread.step, hhigh, ← hcstep]
      exact hreached.mono hlt
    · intro d hd
      rw [hread.step, hhigh]
      rcases hmem d hd with hd | rfl
      · obtain ⟨hds, hdle, hdat⟩ := h.read d hd
        exact ⟨hds, by omega, hdat⟩
      · exact ⟨hcstep, Nat.le_refl _, a, hat⟩
    · rw [hread.step, hhigh, ← hcstep]
      rcases hlast with hzero | ⟨v, hv, hvote⟩
      · omega
      · rw [hvalue, Option.some.injEq] at hv
        rw [hv]
        exact Or.inr ⟨a, hvote⟩

end Routine

section Step

variable {cfg : Config N} {w : World N} {i : Fin N} {e : Effect N}
  (hdoes : Does cfg w.sent i (w.peers i) e)

theorem FromRumor.commit {j : Fin N} {c : Promise} (h : FromRumor w j c) : FromRumor (w.commit i e) j c := by
  obtain ⟨a, hat⟩ := h
  exact ⟨a, hat.commit⟩

include hdoes

theorem reached_commit {j : Fin N} {s b : Nat} (h : (w.peers j).Reached s b) :
    ((w.commit i e).peers j).Reached s b := by
  by_cases hj : j = i
  · subst hj
    rw [commit_peers_self]
    exact hdoes.reached s b h
  · rw [commit_peers_of_ne w i e hj]
    exact h

theorem RoutineOk.commit {j : Fin N} {t : Routine} (h : RoutineOk w j t) : RoutineOk (w.commit i e) j t where
  reached := reached_commit hdoes h.reached
  read c hc := by
    obtain ⟨hstep, hle, hfrom⟩ := h.read c hc
    exact ⟨hstep, hle, hfrom.commit⟩
  value := by
    rcases h.value with hzero | ⟨a, hvote⟩
    · exact Or.inl hzero
    · exact Or.inr ⟨a, hvote.commit⟩

theorem ProposerOk.prepares_commit {j : Fin N} (h : ProposerOk cfg w j) (a : Fin N) (s b : Nat)
    (hsent : (w.commit i e).Sent a (.prepare s b j)) : ((w.commit i e).peers j).Reached s b := by
  rw [sent_commit] at hsent
  rcases hsent with hsent | ⟨-, hb⟩
  · exact reached_commit hdoes (h.prepares a s b hsent)
  · obtain ⟨rfl, hreached⟩ := hdoes.sends_prepare s b j hb
    rw [commit_peers_self]
    exact hreached

theorem ProposerOk.asked_commit {j : Fin N} (h : ProposerOk cfg w j) (a : Fin N) (s b m : Nat)
    (x : Option PaxosValue) (hsent : (w.commit i e).Sent a (.promise j s b m x)) :
    ((w.commit i e).peers j).Reached s b := by
  rw [sent_commit] at hsent
  rcases hsent with hsent | ⟨-, hb⟩
  · exact reached_commit hdoes (h.asked a s b m x hsent)
  · obtain ⟨k, o, hprepare⟩ := hdoes.sends_promise j s b m x hb
    exact reached_commit hdoes (h.prepares o s b ⟨k, hprepare⟩)

theorem ProposerOk.other {j : Fin N} (h : ProposerOk cfg w j) (hj : j ≠ i) :
    ProposerOk cfg (w.commit i e) j := by
  have hpeer := commit_peers_of_ne w i e hj
  refine ⟨?_, ?_, h.prepares_commit hdoes, h.asked_commit hdoes, ?_, ?_⟩
  · rw [hpeer]
    exact h.positive
  · rw [hpeer]
    exact h.residue
  · rw [hpeer]
    intro c hc
    exact ⟨(h.channel c hc).1, (h.channel c hc).2.commit⟩
  · rw [hpeer]
    intro t ht
    exact (h.routines t ht).commit hdoes

theorem ProposerOk.self (h : ProposerOk cfg w i) (hacceptors : ∀ a, AcceptorOk w a) :
    ProposerOk cfg (w.commit i e) i := by
  refine ⟨?_, ?_, h.prepares_commit hdoes, h.asked_commit hdoes, ?_, ?_⟩
  · rw [commit_peers_self]
    have hpositive := h.positive
    have hrange := (cfg.inRange i).1
    have hid := hdoes.proposalID
    omega
  · rw [commit_peers_self]
    have hpositive := h.positive
    rcases hdoes.proposalID with hid | hid | hid
    · rw [hid]
      exact h.residue
    · rw [hid, Nat.sub_add_comm hpositive, Nat.add_mod_right]
      exact h.residue
    · rw [hid]
      have hrange := cfg.inRange i
      exact Nat.mod_eq_of_lt (by omega)
  · rw [commit_peers_self]
    intro c hc
    rcases hdoes.channel c hc with ⟨hold, hstep⟩ | ⟨hstep, o, hsent⟩
    · rw [hstep]
      exact ⟨(h.channel c hold).1, (h.channel c hold).2.commit⟩
    · have hfrom : FromRumor w i c := ⟨o, hsent⟩
      exact ⟨hstep, hfrom.commit⟩
  · rw [commit_peers_self]
    intro t' ht'
    apply RoutineOk.commit hdoes
    rcases hdoes.routines t' ht' with ⟨hstep, hread, hhigh⟩ | ⟨t, ht, hmove⟩ | ⟨t, ht, c, hc, hstep, hread⟩
    · refine ⟨?_, by simp [hread], Or.inl hhigh⟩
      rw [hstep, hhigh]
      exact ⟨Nat.le_refl _, fun _ => h.positive⟩
    · exact (h.routines t ht).move hmove
    · obtain ⟨hcstep, hfrom⟩ := h.channel c hc
      exact (h.routines t ht).readPromise hacceptors h.asked hfrom (hcstep.trans hstep.symm) hread

theorem proposerOk_step (h : ∀ j, ProposerOk cfg w j) (hacceptors : ∀ a, AcceptorOk w a) (j : Fin N) :
    ProposerOk cfg (w.commit i e) j := by
  by_cases hj : j = i
  · subst hj
    exact (h j).self hdoes hacceptors
  · exact (h j).other hdoes hj

end Step

end MarketPeer.Paxos
