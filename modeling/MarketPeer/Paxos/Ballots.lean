import MarketPeer.Paxos.Agreement

/-!
# One value for each ballot

A peer raises its ballot on timeouts only, so two calls of `Propose` in one step can
use the same one. It takes a majority of promises to propose, and each promise serves
once; the second call gets nowhere unless promises for other ballots were counted.
-/

namespace MarketPeer.Paxos

variable {N : Nat} {cfg : Config N}

/-- Every propose message is on the log of proposals. -/
structure ProposalsLogged (cfg : Config N) (w : World N) : Prop extends BallotsOk cfg w where
  logged : ∀ j s b v, w.Sent j (.propose s b v) → ∃ q ∈ w.proposed, q.step = s ∧ q.id = b ∧ q.value = v

theorem proposalsLogged_init (cfg : Config N) : ProposalsLogged cfg (World.init cfg) where
  toBallotsOk := ballotsOk_init cfg
  logged := by simp [World.init, World.Sent, World.At]

theorem proposalsLogged_step (w : World N) (ev : Event N) (w' : World N) (h : ProposalsLogged cfg w)
    (hown : OwnPromises w ev) (hstep : step cfg w ev = some w') : ProposalsLogged cfg w' := by
  unfold step at hstep
  rw [Option.map_eq_some_iff] at hstep
  obtain ⟨e, hact, rfl⟩ := hstep
  have hdoes := act_does cfg w ev.peer ev.action e hown hact
  refine ⟨h.toBallotsOk.commit hdoes, ?_⟩
  intro j s b v hsent
  rw [sent_commit] at hsent
  rcases hsent with hsent | ⟨rfl, hb⟩
  · obtain ⟨q, hq, hrest⟩ := h.logged j s b v hsent
    exact ⟨q, List.mem_append_left _ hq, hrest⟩
  · obtain ⟨cs, hq⟩ := hdoes.sends_propose s b v hb
    exact ⟨_, List.mem_append_right _ (Option.mem_toList.mpr hq), rfl, rfl, rfl⟩

/-- In every run whose calls of `propose` count promises for their own ballot only, two propose
messages with the same step and ID carry the same value. -/
theorem one_value_per_ballot (cfg : Config N) (es : List (Event N)) (w : World N)
    (hown : Meets (step cfg) OwnPromises (World.init cfg) es)
    (hrun : run (step cfg) (World.init cfg) es = some w) (j j' : Fin N) (s b : Nat) (v v' : PaxosValue)
    (hsent : w.Sent j (.propose s b v)) (hsent' : w.Sent j' (.propose s b v')) : v = v' := by
  have hinv : ProposalsLogged cfg w :=
    run_invariant (ProposalsLogged cfg) proposalsLogged_step es (proposalsLogged_init cfg) hown hrun
  obtain ⟨q, hq, hs, hb, rfl⟩ := hinv.logged j s b v hsent
  obtain ⟨q', hq', hs', hb', rfl⟩ := hinv.logged j' s b v' hsent'
  rw [hinv.oneProposal q hq q' hq' (hs.trans hs'.symm) (hb.trans hb'.symm)]

/-- Peer 0 proposes in ballot 1 and runs into a timeout, proposes again in ballot 4, is told that its
value is chosen, and calls `Propose` with another value before the step is over. -/
def repeatedRun : List (Event 3) :=
  does 0 [.propose firstValue, .prepare 0, .deliver 0] ++ does 1 [.deliver 0] ++
  does 0 [.deliver 1, .deliver 2, .readPromise 0, .readPromise 0, .enterTwo 0, .timeoutTwo 0, .prepare 0,
    .deliver 4] ++ does 1 [.deliver 4] ++
  does 0 [.deliver 5, .deliver 6, .readPromise 0, .readPromise 0, .enterTwo 0, .deliver 7] ++
  does 1 [.deliver 7] ++
  does 0 [.deliver 8, .deliver 9, .learn, .learn, .signalled 0, .unwind 0, .unwind 0,
    .propose secondValue, .prepare 1]

theorem repeatedRun_one_value :
    ∃ w, run (step threePeers) (World.init threePeers) repeatedRun = some w ∧
      w.Sent 0 (.propose 0 4 firstValue) ∧
      ∀ j v, w.Sent j (.propose 0 4 v) → v = firstValue := by
  have hsent : ((run (step threePeers) (World.init threePeers) repeatedRun).bind (·.sent[7]?))
      = some ⟨0, .propose 0 4 firstValue⟩ := by decide
  have hown : Meets (step threePeers) OwnPromises (World.init threePeers) repeatedRun := by decide
  obtain ⟨w, hrun, hw⟩ := Option.bind_eq_some_iff.mp hsent
  refine ⟨w, hrun, ⟨7, hw⟩, ?_⟩
  intro j v hv
  exact one_value_per_ballot threePeers repeatedRun w hown hrun j 0 0 4 v firstValue hv ⟨7, hw⟩

/-- All three peers promise ballot 1, and peer 0 times out. It prepares ballot 4, counts two of the
promises for ballot 1, and leaves two for ballot 4 in the channel. When its value is chosen it calls
`Propose` again, with ballot 4 and these two. -/
def leftoverRun : List (Event 3) :=
  does 0 [.propose firstValue, .prepare 0, .deliver 0] ++ does 1 [.deliver 0] ++ does 2 [.deliver 0] ++
  does 0 [.deliver 1, .deliver 2, .deliver 3, .timeoutOne 0, .readPromise 0, .prepare 0, .deliver 4] ++
  does 1 [.deliver 4] ++
  does 0 [.deliver 5, .readPromise 0, .deliver 6, .readPromise 0, .enterTwo 0, .deliver 7] ++
  does 1 [.deliver 7] ++
  does 0 [.deliver 8, .deliver 9, .learn, .learn, .signalled 0, .unwind 0] ++
  does 0 [.propose secondValue, .prepare 1, .readPromise 1, .readPromise 1, .enterTwo 1]

theorem leftoverRun_two_values :
    ∃ w, run (step threePeers) (World.init threePeers) leftoverRun = some w ∧
      w.Sent 0 (.propose 0 4 firstValue) ∧ w.Sent 0 (.propose 0 4 secondValue) ∧
      ¬∀ j j' s b v v', w.Sent j (.propose s b v) → w.Sent j' (.propose s b v') → v = v' := by
  have hsent : (run (step threePeers) (World.init threePeers) leftoverRun).map
      (fun w => (w.sent[7]?, w.sent[12]?))
      = some (some ⟨0, .propose 0 4 firstValue⟩, some ⟨0, .propose 0 4 secondValue⟩) := by decide
  obtain ⟨w, hrun, hw⟩ := Option.map_eq_some_iff.mp hsent
  rw [Prod.mk.injEq] at hw
  have hfirst : w.Sent 0 (.propose 0 4 firstValue) := ⟨7, hw.1⟩
  have hsecond : w.Sent 0 (.propose 0 4 secondValue) := ⟨12, hw.2⟩
  refine ⟨w, hrun, hfirst, hsecond, ?_⟩
  intro hone
  have heq := hone 0 0 0 4 firstValue secondValue hfirst hsecond
  exact absurd heq (by decide)

end MarketPeer.Paxos
