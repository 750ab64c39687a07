import MarketPeer.Paxos.Proposals

/-!
# Votes and decisions

A vote is for the proposal of its ballot and is cast once. The accepts that a
learner counts for one ballot are hence votes of as many acceptors.
-/

namespace MarketPeer.Paxos

variable {N : Nat}

/-! ## Votes -/

structure VotesOk (w : World N) : Prop where
  proposes : ∀ k a s b v, w.At k a (.propose s b v) →
    ∃ q ∈ w.proposed, q.rumor = k ∧ q.step = s ∧ q.id = b ∧ q.value = v
  votes : ∀ a s b v, w.Sent a (.accept s b v) →
    ∃ q ∈ w.proposed, q.rumor ∈ (w.peers a).processed ∧ q.step = s ∧ q.id = b ∧ q.value = v
  voteOnce : ∀ k k' a s b v v', w.At k a (.accept s b v) → w.At k' a (.accept s b v') → k = k'

theorem votesOk_init (cfg : Config N) : VotesOk (World.init cfg) where
  proposes := by simp [World.init, World.At]
  votes := by simp [World.init, World.Sent, World.At]
  voteOnce := by simp [World.init, World.At]

section Votes

variable {cfg : Config N} {w : World N} {i : Fin N} {e : Effect N}

theorem VotesOk.value_eq (h : VotesOk w) (hone : OneProposal w) {a a' : Fin N} {s b : Nat} {v v' : PaxosValue}
    (hv : w.Sent a (.accept s b v)) (hv' : w.Sent a' (.accept s b v')) : v = v' := by
  obtain ⟨q, hq, -, hs, hb, rfl⟩ := h.votes a s b v hv
  obtain ⟨q', hq', -, hs', hb', rfl⟩ := h.votes a' s b v' hv'
  rw [hone q hq q' hq' (hs.trans hs'.symm) (hb.trans hb'.symm)]

theorem mem_proposed_commit {q : Proposal N} (h : q ∈ w.proposed) : q ∈ (w.commit i e).proposed :=
  List.mem_append_left _ h

variable (hdoes : Does cfg w.sent i (w.peers i) e)
include hdoes

theorem processed_commit (a : Fin N) : (w.peers a).processed ⊆ ((w.commit i e).peers a).processed := by
  by_cases ha : a = i
  · subst ha
    rw [commit_peers_self]
    exact hdoes.processed_subset
  · rw [commit_peers_of_ne w i e ha]
    exact List.Subset.refl _

/-- A peer that votes has a proposal before it that it has not looked at. -/
theorem VotesOk.votes_new (h : VotesOk w) (s b : Nat) (v : PaxosValue)
    (hb : e.broadcast = some (.accept s b v)) :
    ∃ q ∈ w.proposed, q.rumor ∉ (w.peers i).processed ∧ q.rumor ∈ e.peer.processed ∧
      q.step = s ∧ q.id = b ∧ q.value = v := by
  obtain ⟨k, o, hsent, hnew, hin⟩ := hdoes.sends_accept s b v hb
  obtain ⟨q, hq, rfl, hrest⟩ := h.proposes k o s b v hsent
  exact ⟨q, hq, hnew, hin, hrest⟩

theorem VotesOk.voteOnce_new (h : VotesOk w) (hone : OneProposal w) {k : Nat} {s b : Nat}
    {v v' : PaxosValue} (hold : w.At k i (.accept s b v)) : e.broadcast ≠ some (.accept s b v') := by
  intro hb
  obtain ⟨q, hq, hin, hs, hid, -⟩ := h.votes i s b v ⟨k, hold⟩
  obtain ⟨q', hq', hnew, -, hs', hid', -⟩ := h.votes_new hdoes s b v' hb
  rw [hone q hq q' hq' (hs.trans hs'.symm) (hid.trans hid'.symm)] at hin
  exact hnew hin

theorem votesOk_step (h : VotesOk w) (hone : OneProposal w) : VotesOk (w.commit i e) where
  proposes k a s b v hat := by
    rw [at_commit] at hat
    rcases hat with hat | ⟨rfl, rfl, hb⟩
    · obtain ⟨q, hq, hrest⟩ := h.proposes k a s b v hat
      exact ⟨q, mem_proposed_commit hq, hrest⟩
    · obtain ⟨cs, hq⟩ := hdoes.sends_propose s b v hb
      refine ⟨_, List.mem_append_right _ (Option.mem_toList.mpr hq), rfl, rfl, rfl, rfl⟩
  votes a s b v hsent := by
    rw [sent_commit] at hsent
    rcases hsent with hsent | ⟨rfl, hb⟩
    · obtain ⟨q, hq, hin, hrest⟩ := h.votes a s b v hsent
      exact ⟨q, mem_proposed_commit hq, processed_commit hdoes a hin, hrest⟩
    · obtain ⟨q, hq, -, hin, hrest⟩ := h.votes_new hdoes s b v hb
      rw [commit_peers_self]
      exact ⟨q, mem_proposed_commit hq, hin, hrest⟩
  voteOnce k k' a s b v v' hk hk' := by
    rw [at_commit] at hk hk'
    rcases hk with hk | ⟨rfl, rfl, hb⟩
    · rcases hk' with hk' | ⟨rfl, rfl, hb⟩
      · exact h.voteOnce k k' a s b v v' hk hk'
      · exact absurd hb (h.voteOnce_new hdoes hone hk)
    · rcases hk' with hk' | ⟨rfl, -, -⟩
      · exact absurd hb (h.voteOnce_new hdoes hone hk')
      · rfl

end Votes

/-! ## Learners -/

structure LearnerOk (w : World N) (j : Fin N) : Prop where
  accepts : ∀ c ∈ (w.peers j).pool, c.step = (w.peers j).step ∧ c.rumor ∈ (w.peers j).processed ∧
    ∃ a, w.At c.rumor a (.accept c.step c.id c.value)
  nodup : ((w.peers j).pool.map Accept.rumor).Nodup

theorem learnerOk_init (cfg : Config N) (j : Fin N) : LearnerOk (World.init cfg) j where
  accepts := by simp [World.init, Peer.init, Peer.pool]
  nodup := List.nodup_nil

section Learners

variable {cfg : Config N} {w : World N} {i : Fin N} {e : Effect N}
  (hdoes : Does cfg w.sent i (w.peers i) e)
include hdoes

theorem LearnerOk.accepts_commit {j : Fin N} (h : LearnerOk w j) (c : Accept) (hc : c ∈ (w.peers j).pool) :
    c.step = (w.peers j).step ∧ c.rumor ∈ ((w.commit i e).peers j).processed ∧
      ∃ a, (w.commit i e).At c.rumor a (.accept c.step c.id c.value) := by
  obtain ⟨hstep, hin, a, hat⟩ := h.accepts c hc
  exact ⟨hstep, processed_commit hdoes j hin, a, hat.commit⟩

theorem learnerOk_step (h : ∀ j, LearnerOk w j) (j : Fin N) : LearnerOk (w.commit i e) j := by
  have hold := (h j).accepts_commit hdoes
  by_cases hj : j = i
  · subst hj
    rcases hdoes.pool with ⟨hpool, hstep⟩ | hpool | ⟨c, o, hpool, hstep, hc, hnew, hin, hsent⟩
    · refine ⟨?_, ?_⟩
      · rw [commit_peers_self] at hold ⊢
        rw [hpool, hstep]
        exact hold
      · rw [commit_peers_self, hpool]
        exact (h j).nodup
    · refine ⟨?_, ?_⟩
      · simp [hpool]
      · simp [hpool]
    · refine ⟨?_, ?_⟩
      · rw [commit_peers_self] at hold ⊢
        rw [hpool, hstep]
        intro d hd
        rcases List.mem_append.mp hd with hd | hd
        · exact hold d hd
        · rw [List.mem_singleton.mp hd]
          have hat : w.At c.rumor o (.accept c.step c.id c.value) := hsent
          exact ⟨hc, hin, o, hat.commit⟩
      · rw [commit_peers_self, hpool, List.map_append, List.map_singleton, List.nodup_append]
        refine ⟨(h j).nodup, List.nodup_singleton _, ?_⟩
        rintro k hk k' hk' rfl
        obtain ⟨d, hd, rfl⟩ := List.mem_map.mp hk
        rw [List.mem_singleton] at hk'
        rw [← hk'] at hnew
        exact hnew ((h j).accepts d hd).2.1
  · refine ⟨?_, ?_⟩
    · rw [commit_peers_of_ne w i e hj] at hold ⊢
      exact hold
    · rw [commit_peers_of_ne w i e hj]
      exact (h j).nodup

end Learners

/-! ## Decisions -/

def DecisionOk (w : World N) (d : Decision N) : Prop :=
  ∃ b, ∃ Q : Finset (Fin N), threshold N ≤ Q.card ∧ ∀ a ∈ Q, w.Sent a (.accept d.step b d.value)

section Decisions

variable {cfg : Config N} {w : World N} {i : Fin N} {e : Effect N}

theorem DecisionOk.commit {d : Decision N} (h : DecisionOk w d) : DecisionOk (w.commit i e) d := by
  obtain ⟨b, Q, hcard, hvotes⟩ := h
  exact ⟨b, Q, hcard, fun a ha => (hvotes a ha).commit⟩

/-- Different accepts of one ballot are the votes of different acceptors for one value. -/
theorem decisionOk_of_count (hlearner : LearnerOk w i) (hvotes : VotesOk w) (hone : OneProposal w)
    (c : Accept) (hc : c ∈ (w.peers i).pool) (L : List Accept) (hsub : L.Sublist (w.peers i).pool)
    (hid : ∀ d ∈ L, d.id = c.id) (hcount : threshold N ≤ L.length) :
    DecisionOk w ⟨i, (w.peers i).step, c.value⟩ := by
  have hnodup : (L.map Accept.rumor).Nodup := hlearner.nodup.sublist (hsub.map Accept.rumor)
  obtain ⟨hcstep, -, a0, hc0⟩ := hlearner.accepts c hc
  rw [hcstep] at hc0
  obtain ⟨Q, hcard, hQ, -⟩ := exists_senders (L.map Accept.rumor).toFinset
    (fun k a => w.At k a (.accept (w.peers i).step c.id c.value)) (by
      intro k hk
      rw [List.mem_toFinset, List.mem_map] at hk
      obtain ⟨d, hd, rfl⟩ := hk
      obtain ⟨hdstep, -, a, hat⟩ := hlearner.accepts d (hsub.subset hd)
      rw [hdstep, hid d hd] at hat
      have hvalue := hvotes.value_eq hone ⟨d.rumor, hat⟩ ⟨c.rumor, hc0⟩
      exact ⟨a, hvalue ▸ hat⟩) (by
      intro k _ k' _ a hk hk'
      exact hvotes.voteOnce k k' a _ _ _ _ hk hk')
  refine ⟨c.id, Q, ?_, ?_⟩
  · rw [hcard, List.toFinset_card_of_nodup hnodup, List.length_map]
    exact hcount
  · intro a ha
    obtain ⟨k, -, hat⟩ := hQ a ha
    exact ⟨k, hat⟩

theorem decisionOk_step (hdoes : Does cfg w.sent i (w.peers i) e) (hlearner : LearnerOk w i)
    (hvotes : VotesOk w) (hone : OneProposal w)
    (hcounted : ∀ d, e.decision = some d → ∀ c rest, (w.peers i).acceptCh = c :: rest →
      threshold N ≤ (((w.peers i).idAccepts ++ [c]).filter (·.value.uniqID = c.value.uniqID)).length →
      ∀ d ∈ (w.peers i).idAccepts, d.value.uniqID = c.value.uniqID → d.id = c.id)
    (h : ∀ d ∈ w.decided, DecisionOk w d) (d : Decision N) (hd : d ∈ (w.commit i e).decided) :
    DecisionOk (w.commit i e) d := by
  apply DecisionOk.commit
  rcases List.mem_append.mp hd with hd | hd
  · exact h d hd
  · rw [Option.mem_toList] at hd
    obtain ⟨c, rest, hch, rfl, hcount⟩ := hdoes.decides d hd
    have hsame := hcounted _ hd c rest hch hcount
    have hpool : (w.peers i).pool = ((w.peers i).idAccepts ++ [c]) ++ rest := by
      unfold Peer.pool
      rw [hch, List.append_assoc, List.singleton_append]
    have hsub : ((w.peers i).idAccepts ++ [c]).Sublist (w.peers i).pool := by
      rw [hpool]
      exact List.sublist_append_left _ _
    refine decisionOk_of_count hlearner hvotes hone c (by simp [hpool]) _
      (List.filter_sublist.trans hsub) ?_ hcount
    intro d' hd'
    rw [List.mem_filter, List.mem_append, List.mem_singleton, decide_eq_true_eq] at hd'
    obtain ⟨hd' | rfl, huniq⟩ := hd'
    · exact hsame d' hd' huniq
    · rfl

end Decisions

end MarketPeer.Paxos
