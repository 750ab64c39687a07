import MarketPeer.Lib.Voting
import MarketPeer.Paxos.Learners

/-!
# Agreement

The ballots of one step are disciplined as long as no proposer and no learner
mixes ballots, and then two decisions of the step are for one value.
-/

namespace MarketPeer.Paxos

variable {N : Nat}

/-! ## The invariant of the system -/

/-- What holds as long as the proposers keep to their own ballots. -/
structure BallotsOk (cfg : Config N) (w : World N) : Prop where
  acceptors : ∀ a, AcceptorOk w a
  proposers : ∀ j, ProposerOk cfg w j
  proposals : ∀ q ∈ w.proposed, ProposalOk cfg w q
  used : ∀ j, UsedOnce w j
  votes : VotesOk w
  learners : ∀ j, LearnerOk w j

structure Inv (cfg : Config N) (w : World N) : Prop extends BallotsOk cfg w where
  decisions : ∀ d ∈ w.decided, DecisionOk w d

theorem ballotsOk_init (cfg : Config N) : BallotsOk cfg (World.init cfg) where
  acceptors := acceptorOk_init cfg
  proposers := proposerOk_init cfg
  proposals := by simp [World.init]
  used := usedOnce_init cfg
  votes := votesOk_init cfg
  learners := learnerOk_init cfg

theorem inv_init (cfg : Config N) : Inv cfg (World.init cfg) where
  toBallotsOk := ballotsOk_init cfg
  decisions := by simp [World.init]

variable {cfg : Config N}

theorem BallotsOk.oneProposal {w : World N} (h : BallotsOk cfg w) : OneProposal w :=
  proposal_unique h.acceptors h.proposals h.used

theorem BallotsOk.commit {w : World N} {i : Fin N} {e : Effect N} (h : BallotsOk cfg w)
    (hdoes : Does cfg w.sent i (w.peers i) e) : BallotsOk cfg (w.commit i e) where
  acceptors := acceptorOk_step hdoes h.acceptors
  proposers := proposerOk_step hdoes h.proposers h.acceptors
  proposals := proposalOk_step hdoes (h.proposers i) h.proposals
  used := usedOnce_step hdoes h.used
  votes := votesOk_step hdoes h.votes h.oneProposal
  learners := learnerOk_step hdoes h.learners

theorem inv_step (w : World N) (e : Event N) (w' : World N) (h : Inv cfg w) (hone : OneBallot w e)
    (hstep : step cfg w e = some w') : Inv cfg w' := by
  unfold step at hstep
  rw [Option.map_eq_some_iff] at hstep
  obtain ⟨eff, hact, rfl⟩ := hstep
  have hdoes := act_does cfg w e.peer e.action eff hone.ownPromises hact
  refine ⟨h.toBallotsOk.commit hdoes, ?_⟩
  exact decisionOk_step hdoes (h.learners e.peer) h.votes h.oneProposal
    (fun d hd => hone.counted hact hd) h.decisions

/-! ## The ballots of a step -/

def World.ballots (w : World N) (s : Nat) : Ballots (Fin N) PaxosValue where
  proposed b v := ∃ q ∈ w.proposed, q.step = s ∧ q.id = b ∧ q.value = v
  voted a b v := w.Sent a (.accept s b v)

theorem Inv.voted_proposed {w : World N} (h : Inv cfg w) (s : Nat) (a : Fin N) (b : Nat) (v : PaxosValue)
    (hv : (w.ballots s).voted a b v) : (w.ballots s).proposed b v := by
  obtain ⟨q, hq, -, hrest⟩ := h.votes.votes a s b v hv
  exact ⟨q, hq, hrest⟩

/-- The acceptors behind the promises of a proposal: a majority, one for each promise. -/
theorem BallotsOk.promisers {w : World N} (h : BallotsOk cfg w) (q : Proposal N) (hq : q ∈ w.proposed) :
    ∃ Q : Finset (Fin N), threshold N ≤ Q.card ∧
      (∀ a ∈ Q, ∃ c ∈ q.promises, w.Sent a (.promise q.peer q.step q.id c.acceptedID c.acceptedValue)) ∧
      ∀ c ∈ q.promises, ∃ a ∈ Q, w.Sent a (.promise q.peer q.step q.id c.acceptedID c.acceptedValue) := by
  have hok := h.proposals q hq
  have hat : ∀ c ∈ q.promises, ∃ a,
      w.At c.rumor a (.promise q.peer q.step q.id c.acceptedID c.acceptedValue) := by
    intro c hc
    obtain ⟨hs, hb, a, hat⟩ := hok.promises c hc
    rw [hs, hb] at hat
    exact ⟨a, hat⟩
  obtain ⟨Q, hcard, hQ, hall⟩ := exists_senders (q.promises.map Promise.rumor).toFinset
    (fun k a => ∃ c ∈ q.promises, c.rumor = k ∧
      w.At k a (.promise q.peer q.step q.id c.acceptedID c.acceptedValue)) (by
      intro k hk
      rw [List.mem_toFinset, List.mem_map] at hk
      obtain ⟨c, hc, rfl⟩ := hk
      obtain ⟨a, hat⟩ := hat c hc
      exact ⟨a, c, hc, rfl, hat⟩) (by
      rintro k - k' - a ⟨c, -, -, hk⟩ ⟨c', -, -, hk'⟩
      exact (h.acceptors a).promiseOnce k k' _ _ _ _ _ _ _ _ hk hk')
  refine ⟨Q, ?_, ?_, ?_⟩
  · rw [hcard, List.toFinset_card_of_nodup ((h.used q.peer).nodup hq), List.length_map, hok.count]
  · intro a ha
    obtain ⟨k, -, c, hc, -, hat⟩ := hQ a ha
    exact ⟨c, hc, k, hat⟩
  · intro c hc
    obtain ⟨a, ha, c', -, -, hat'⟩ :=
      hall c.rumor (List.mem_toFinset.mpr (List.mem_map_of_mem hc))
    -- The rumor of a promise tells its accepted ID and value.
    obtain ⟨o, hat⟩ := hat c hc
    have hmsg := Option.some.inj (hat.symm.trans hat')
    rw [Rumor.mk.injEq] at hmsg
    rw [hmsg.1] at hat
    exact ⟨a, ha, c.rumor, hat⟩

/-- The acceptors behind the promises of a proposal have not voted since the vote it repeats. -/
theorem Inv.safe {w : World N} (h : Inv cfg w) (q : Proposal N) (hq : q ∈ w.proposed) :
    ∃ Q : Finset (Fin N), threshold N ≤ Q.card ∧ ∃ m < q.id, (w.ballots q.step).Quiet Q m q.id ∧
      (m = 0 ∨ (w.ballots q.step).proposed m q.value) := by
  obtain ⟨m, hm, hle, hvalue⟩ := (h.proposals q hq).safe
  obtain ⟨Q, hcard, hQ, -⟩ := h.promisers q hq
  refine ⟨Q, hcard, m, hm, ?_, ?_⟩
  · intro a ha b' v hv hb'
    obtain ⟨c, hc, hsent⟩ := hQ a ha
    obtain ⟨-, -, hbelow⟩ := (h.acceptors a).honest _ _ _ _ _ hsent
    exact Nat.le_trans (hbelow b' v hv hb') (hle c hc)
  · rcases hvalue with hzero | ⟨a, hvote⟩
    · exact Or.inl hzero
    · exact Or.inr (h.voted_proposed q.step a m q.value hvote)

theorem Inv.disciplined {w : World N} (h : Inv cfg w) (s : Nat) : (w.ballots s).Disciplined (threshold N) where
  positive b v := by
    rintro ⟨q, hq, -, rfl, -⟩
    exact (h.proposals q hq).positive
  voted_proposed := h.voted_proposed s
  proposed_once b v v' := by
    rintro ⟨q, hq, hs, hb, rfl⟩ ⟨q', hq', hs', hb', rfl⟩
    rw [h.oneProposal q hq q' hq' (hs.trans hs'.symm) (hb.trans hb'.symm)]
  safe b v := by
    rintro ⟨q, hq, rfl, rfl, rfl⟩
    exact h.safe q hq

theorem Inv.agreement {w : World N} (h : Inv cfg w) (d d' : Decision N) (hd : d ∈ w.decided)
    (hd' : d' ∈ w.decided) (hstep : d.step = d'.step) : d.value = d'.value := by
  obtain ⟨b, Q, hQ⟩ := h.decisions d hd
  obtain ⟨b', Q', hQ'⟩ := h.decisions d' hd'
  rw [← hstep] at hQ'
  have hmajority : Fintype.card (Fin N) < 2 * threshold N := by
    rw [Fintype.card_fin]
    exact two_mul_threshold N
  exact chosen_unique hmajority (h.disciplined d.step) b b' d.value d'.value ⟨Q, hQ⟩ ⟨Q', hQ'⟩

/-- In every run in which no proposer and no learner mixes ballots, whatever is lost, delayed or
reordered and whichever timers fire, two decisions at one step are for one value. -/
theorem paxos_agreement (cfg : Config N) (es : List (Event N)) (w : World N)
    (hone : Meets (step cfg) OneBallot (World.init cfg) es)
    (hrun : run (step cfg) (World.init cfg) es = some w) (d d' : Decision N) (hd : d ∈ w.decided)
    (hd' : d' ∈ w.decided) (hstep : d.step = d'.step) : d.value = d'.value := by
  have hinv : Inv cfg w := run_invariant (Inv cfg) inv_step es (inv_init cfg) hone hrun
  exact hinv.agreement d d' hd hd' hstep

/-! ## Two runs of three peers -/

def threePeers : Config 3 where
  paxosID i := i.val + 1
  distinct i j h := Fin.ext (by simpa using h)
  inRange i := ⟨by omega, by omega⟩

def firstValue : PaxosValue := ⟨"1", "a", "x"⟩
def secondValue : PaxosValue := ⟨"2", "b", "y"⟩

def does (i : Fin 3) (actions : List Action) : List (Event 3) := actions.map (⟨i, ·⟩)

/-- Peer 0 proposes, and peers 0 and 1 accept and learn its value. -/
def quietRun : List (Event 3) :=
  does 0 [.propose firstValue, .prepare 0, .deliver 0] ++ does 1 [.deliver 0] ++
  does 0 [.deliver 1, .deliver 2, .readPromise 0, .readPromise 0, .enterTwo 0, .deliver 3] ++
  does 1 [.deliver 3] ++
  does 0 [.deliver 4, .deliver 5, .learn, .learn] ++
  does 1 [.deliver 4, .deliver 5, .learn, .learn]

theorem quietRun_agrees :
    ∃ w, run (step threePeers) (World.init threePeers) quietRun = some w ∧
      w.decided = [⟨0, 0, firstValue⟩, ⟨1, 0, firstValue⟩] ∧
      ∀ d ∈ w.decided, ∀ d' ∈ w.decided, d.step = d'.step → d.value = d'.value := by
  have hdecided : (run (step threePeers) (World.init threePeers) quietRun).map (·.decided)
      = some [⟨0, 0, firstValue⟩, ⟨1, 0, firstValue⟩] := by decide
  have hone : Meets (step threePeers) OneBallot (World.init threePeers) quietRun := by decide
  obtain ⟨w, hrun, hw⟩ := Option.map_eq_some_iff.mp hdecided
  refine ⟨w, hrun, hw, ?_⟩
  intro d hd d' hd' hstep
  exact paxos_agreement threePeers quietRun w hone hrun d d' hd hd' hstep

/-- Peer 0 counts its own accepts of ballots 1 and 4 as two, and decides on the first value. Peers 1
and 2, which have accepted nothing, then decide on the second value in ballot 5. -/
def mixedRun : List (Event 3) :=
  does 0 [.propose firstValue, .prepare 0, .deliver 0] ++ does 1 [.deliver 0] ++
  does 0 [.deliver 1, .deliver 2, .readPromise 0, .readPromise 0, .enterTwo 0, .deliver 3] ++
  does 1 [.propose secondValue, .prepare 0, .deliver 5] ++ does 2 [.deliver 5] ++
  does 1 [.deliver 6, .deliver 7, .readPromise 0, .readPromise 0, .enterTwo 0, .timeoutTwo 0] ++
  does 0 [.timeoutTwo 0, .prepare 0, .deliver 9] ++ does 1 [.deliver 9] ++
  does 0 [.deliver 10, .deliver 11, .readPromise 0, .readPromise 0, .enterTwo 0, .deliver 12] ++
  does 0 [.deliver 4, .deliver 13, .learn, .learn] ++
  does 1 [.prepare 0, .deliver 15] ++ does 2 [.deliver 15] ++
  does 1 [.deliver 16, .deliver 17, .readPromise 0, .readPromise 0, .enterTwo 0, .deliver 18] ++
  does 2 [.deliver 18] ++
  does 1 [.deliver 19, .deliver 20, .learn, .learn]

theorem mixedRun_disagrees :
    ∃ w, run (step threePeers) (World.init threePeers) mixedRun = some w ∧
      w.decided = [⟨0, 0, firstValue⟩, ⟨1, 0, secondValue⟩] ∧
      ¬∀ d ∈ w.decided, ∀ d' ∈ w.decided, d.step = d'.step → d.value = d'.value := by
  have hdecided : (run (step threePeers) (World.init threePeers) mixedRun).map (·.decided)
      = some [⟨0, 0, firstValue⟩, ⟨1, 0, secondValue⟩] := by decide
  obtain ⟨w, hrun, hw⟩ := Option.map_eq_some_iff.mp hdecided
  refine ⟨w, hrun, hw, ?_⟩
  rw [hw]
  decide

end MarketPeer.Paxos
