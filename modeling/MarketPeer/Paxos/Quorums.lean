import MarketPeer.Paxos.Agreement

/-!
# The quorums behind a proposal and a decision

A proposal stands on promises for its own ballot, and a decision on votes in one
ballot, as long as neither is mixed with those of other ballots.
-/

namespace MarketPeer.Paxos

variable {N : Nat}

/-! ## The calls of `propose` -/

/-- A call proposes its own value as long as no promise told it another. -/
def Routine.OwnValue (t : Routine) : Prop := t.highestAcceptedID = 0 → t.proposedValue = t.value

structure SameCall (t t' : Routine) : Prop where
  step : t'.step = t.step
  value : t'.value = t.value
  own : t.OwnValue → t'.OwnValue

/-- Peer `j` has called `propose` with `v` at step `s`. -/
def World.Called (w : World N) (j : Fin N) (s : Nat) (v : PaxosValue) : Prop :=
  ∃ t ∈ (w.peers j).routines, t.step = s ∧ t.value = v

/-- What a step makes of the calls of its peer. -/
inductive CallsMove (calls : List Routine) : List Routine → Prop
  | same : CallsMove calls calls
  | new (t : Routine) (hown : t.OwnValue) : CallsMove calls (calls ++ [t])
  | moved (r : Nat) (t t' : Routine) (hr : calls[r]? = some t) (hcall : SameCall t t') : CallsMove calls (calls.set r t')

section Calls

variable {cfg : Config N} {w : World N} {i : Fin N} {e : Effect N} {p : Peer} {r : Nat} {t : Routine}
  {calls calls' : List Routine}

/-- No call is lost, and none changes its step or its value. -/
theorem CallsMove.mem (h : CallsMove calls calls') (ht : t ∈ calls) :
    ∃ t' ∈ calls', t'.step = t.step ∧ t'.value = t.value := by
  cases h with
  | same => exact ⟨t, ht, rfl, rfl⟩
  | new t' hown => exact ⟨t, List.mem_append_left _ ht, rfl, rfl⟩
  | moved r t' t'' hr hcall =>
    obtain ⟨k, hk⟩ := List.mem_iff_getElem?.mp ht
    by_cases hkr : r = k
    · subst hkr
      rw [hr, Option.some.injEq] at hk
      subst hk
      exact ⟨t'', List.mem_set (List.getElem?_eq_some_iff.mp hr).1 t'', hcall.step, hcall.value⟩
    · refine ⟨t, List.mem_iff_getElem?.mpr ⟨k, ?_⟩, rfl, rfl⟩
      rw [List.getElem?_set_ne hkr, hk]

theorem CallsMove.own (h : CallsMove calls calls') (hown : ∀ t ∈ calls, t.OwnValue) : ∀ t ∈ calls', t.OwnValue := by
  intro t ht
  cases h with
  | same => exact hown t ht
  | new t' hfresh =>
    rw [List.mem_append, List.mem_singleton] at ht
    obtain ht | rfl := ht
    · exact hown t ht
    · exact hfresh
  | moved r t' t'' hr hcall =>
    obtain ht | rfl := List.mem_or_eq_of_mem_set ht
    · exact hown t ht
    · exact hcall.own (hown t' (List.mem_of_getElem? hr))

theorem processRumor_routines (k : Nat) (msg : Msg N) (p : Peer) (h : processRumor i k msg p = some e) :
    e.peer.routines = p.routines := by
  unfold processRumor at h
  cases msg with
  | prepare step id source =>
    simp only [paxosPrepareCallback, Option.some.injEq] at h
    split_ifs at h <;> rw [← h]
  | promise recipient step id acceptedID acceptedValue =>
    simp only [paxosPromiseCallback] at h
    split_ifs at h <;> rw [← Option.some.inj h]
  | propose step id value =>
    simp only [paxosProposeCallback, Option.some.injEq] at h
    split_ifs at h <;> rw [← h]
  | accept step id value =>
    simp only [paxosAcceptCallback, Option.some.injEq] at h
    split_ifs at h <;> rw [← h]
  | tlc step value =>
    simp only [tlcCallback] at h
    split_ifs at h <;> rw [← Option.some.inj h]

theorem prepare_calls (hr : p.routines[r]? = some t) (h : prepare i p r t = some e) :
    CallsMove p.routines e.peer.routines := by
  unfold prepare at h
  split_ifs at h
  · cases h
    exact .moved r t _ hr ⟨rfl, rfl, id⟩
  · cases h
    exact .moved r t _ hr ⟨rfl, rfl, id⟩

theorem readPromise_calls (hr : p.routines[r]? = some t) (h : readPromise p r t = some e) :
    CallsMove p.routines e.peer.routines := by
  unfold readPromise at h
  split at h
  · split_ifs at h with h1 h2
    · obtain ⟨v, -, rfl⟩ := Option.map_eq_some_iff.mp h
      -- An accepted ID above another is not zero, so the value is not the own one any more.
      refine .moved r t _ hr ⟨rfl, rfl, fun _ hzero => ?_⟩
      simp only at hzero
      omega
    · cases h
      exact .moved r t _ hr ⟨rfl, rfl, id⟩
  · cases h

theorem timeoutOne_calls (hr : p.routines[r]? = some t) (h : timeoutOne p r t = some e) :
    CallsMove p.routines e.peer.routines := by
  unfold timeoutOne at h
  split_ifs at h
  · cases h
    exact .moved r t _ hr ⟨rfl, rfl, id⟩
  · cases h
    exact .moved r t _ hr ⟨rfl, rfl, id⟩

theorem enterTwo_calls {now : Nat} (hr : p.routines[r]? = some t) (h : enterTwo i now p r t = some e) :
    CallsMove p.routines e.peer.routines := by
  unfold enterTwo at h
  split_ifs at h
  · cases h
    exact .moved r t _ hr ⟨rfl, rfl, id⟩
  · cases h
    exact .moved r t _ hr ⟨rfl, rfl, id⟩

theorem signalled_calls (hr : p.routines[r]? = some t) (h : signalled p r t = some e) :
    CallsMove p.routines e.peer.routines := by
  unfold signalled at h
  split_ifs at h
  cases h
  exact .moved r t _ hr ⟨rfl, rfl, id⟩

/-- After a timeout of phase two the call proposes its own value again. -/
theorem timeoutTwo_calls (hr : p.routines[r]? = some t) (h : timeoutTwo p r t = some e) :
    CallsMove p.routines e.peer.routines := by
  unfold timeoutTwo at h
  split_ifs at h
  · cases h
    exact .moved r t _ hr ⟨rfl, rfl, id⟩
  · cases h
    exact .moved r t _ hr ⟨rfl, rfl, fun _ _ => rfl⟩

theorem unwind_calls (hr : p.routines[r]? = some t) (h : unwind p r t = some e) :
    CallsMove p.routines e.peer.routines := by
  unfold unwind at h
  split at h
  · cases h
    refine .moved r t _ hr ?_
    split_ifs <;> exact ⟨rfl, rfl, id⟩
  · cases h

/-- A step leaves the calls of its peer alone, adds one, or moves one of them. -/
theorem act_routines (a : Action) (h : act cfg w i a = some e) : CallsMove (w.peers i).routines e.peer.routines := by
  cases a with
  | propose value =>
    simp only [act, propose, Option.some.injEq] at h
    split_ifs at h
    · rw [← h]
      exact .new _ fun _ => rfl
    · rw [← h]
      exact .same
  | deliver k =>
    simp only [act, deliver] at h
    split_ifs at h
    obtain ⟨rumor, -, h⟩ := Option.bind_eq_some_iff.mp h
    rw [processRumor_routines k rumor.msg _ h]
    exact .same
  | prepare r =>
    obtain ⟨t, hr, h⟩ := Option.bind_eq_some_iff.mp h
    exact prepare_calls hr h
  | readPromise r =>
    obtain ⟨t, hr, h⟩ := Option.bind_eq_some_iff.mp h
    exact readPromise_calls hr h
  | timeoutOne r =>
    obtain ⟨t, hr, h⟩ := Option.bind_eq_some_iff.mp h
    exact timeoutOne_calls hr h
  | enterTwo r =>
    obtain ⟨t, hr, h⟩ := Option.bind_eq_some_iff.mp h
    exact enterTwo_calls hr h
  | signalled r =>
    obtain ⟨t, hr, h⟩ := Option.bind_eq_some_iff.mp h
    exact signalled_calls hr h
  | timeoutTwo r =>
    obtain ⟨t, hr, h⟩ := Option.bind_eq_some_iff.mp h
    exact timeoutTwo_calls hr h
  | unwind r =>
    obtain ⟨t, hr, h⟩ := Option.bind_eq_some_iff.mp h
    exact unwind_calls hr h
  | learn =>
    simp only [act, learn] at h
    split at h
    · cases h
    · split_ifs at h <;> rw [← Option.some.inj h] <;> exact .same
  | tlcRead =>
    simp only [act, tlcRead] at h
    split at h
    · split_ifs at h <;> rw [← Option.some.inj h] <;> exact .same
    · cases h
  | tlcAdvance =>
    obtain ⟨tlc, -, rfl⟩ := Option.map_eq_some_iff.mp h
    split_ifs <;> exact .same

theorem called_commit {a : Action} (h : act cfg w i a = some e) {j : Fin N} {s : Nat} {v : PaxosValue}
    (hcalled : w.Called j s v) : (w.commit i e).Called j s v := by
  unfold World.Called at hcalled ⊢
  by_cases hj : j = i
  · subst hj
    rw [commit_peers_self]
    obtain ⟨t, ht, hs, hv⟩ := hcalled
    obtain ⟨t', ht', hstep, hvalue⟩ := (act_routines a h).mem ht
    exact ⟨t', ht', hstep.trans hs, hvalue.trans hv⟩
  · rw [commit_peers_of_ne w i e hj]
    exact hcalled

theorem ownValue_commit {a : Action} (h : act cfg w i a = some e)
    (hown : ∀ j, ∀ t ∈ (w.peers j).routines, t.OwnValue) (j : Fin N) :
    ∀ t ∈ ((w.commit i e).peers j).routines, t.OwnValue := by
  by_cases hj : j = i
  · subst hj
    rw [commit_peers_self]
    exact (act_routines a h).own (hown j)
  · rw [commit_peers_of_ne w i e hj]
    exact hown j

end Calls

/-! ## Promises -/

/-- What a proposal has to stand on: a majority has promised its ballot, and its value is the one of
the caller or the one of the highest vote that these promises tell. -/
def Backed (w : World N) (j : Fin N) (s b : Nat) (v : PaxosValue) : Prop :=
  ∃ Q : Finset (Fin N), threshold N ≤ Q.card ∧ (∀ a ∈ Q, ∃ m x, w.Sent a (.promise j s b m x)) ∧
    (w.Called j s v ∨ ∃ a ∈ Q, ∃ m, w.Sent a (.promise j s b m (some v)) ∧
      ∀ a' ∈ Q, ∀ m' x, w.Sent a' (.promise j s b m' x) → m' ≤ m)

/-- A call that enters phase two is told the highest vote it has ever seen by the promises of this
attempt. -/
def ToldAgain (w : World N) (e : Event N) : Prop :=
  match e.action with
  | .enterTwo r => ∀ t, (w.peers e.peer).routines[r]? = some t →
      t.highestAcceptedID = 0 ∨ ∃ c ∈ t.read, c.acceptedID = t.highestAcceptedID
  | _ => True

instance (w : World N) (e : Event N) : Decidable (ToldAgain w e) :=
  match e with
  | ⟨i, .enterTwo r⟩ =>
    decidable_of_iff (∀ t ∈ (w.peers i).routines[r]?,
      t.highestAcceptedID = 0 ∨ ∃ c ∈ t.read, c.acceptedID = t.highestAcceptedID) Iff.rfl
  | ⟨_, .timeoutOne _⟩ => isTrue trivial
  | ⟨_, .timeoutTwo _⟩ => isTrue trivial
  | ⟨_, .tlcAdvance⟩ => isTrue trivial
  | ⟨_, .propose _⟩ => isTrue trivial
  | ⟨_, .deliver _⟩ => isTrue trivial
  | ⟨_, .prepare _⟩ => isTrue trivial
  | ⟨_, .readPromise _⟩ => isTrue trivial
  | ⟨_, .signalled _⟩ => isTrue trivial
  | ⟨_, .unwind _⟩ => isTrue trivial
  | ⟨_, .learn⟩ => isTrue trivial
  | ⟨_, .tlcRead⟩ => isTrue trivial

def OwnBallot (w : World N) (e : Event N) : Prop := OwnPromises w e ∧ ToldAgain w e

instance (w : World N) (e : Event N) : Decidable (OwnBallot w e) := inferInstanceAs (Decidable (_ ∧ _))

section Promises

variable {cfg : Config N} {w : World N} {i : Fin N} {e : Effect N}

/-- An acceptor promises a ballot once, so what is backed stays backed. -/
theorem Backed.commit {a : Action} (h : act cfg w i a = some e) (hok : ∀ a, AcceptorOk (w.commit i e) a)
    {j : Fin N} {s b : Nat} {v : PaxosValue} (hbacked : Backed w j s b v) :
    Backed (w.commit i e) j s b v := by
  obtain ⟨Q, hcard, hpromised, hvalue⟩ := hbacked
  have hold : ∀ a ∈ Q, ∀ m x, (w.commit i e).Sent a (.promise j s b m x) → w.Sent a (.promise j s b m x) := by
    rintro a ha m x ⟨k, hk⟩
    obtain ⟨m', x', k', hk'⟩ := hpromised a ha
    have hsame := (hok a).promiseOnce k k' j j s b m m' x x' hk hk'.commit
    subst hsame
    have hmsg := Option.some.inj (hk.symm.trans hk'.commit)
    simp only [Rumor.mk.injEq, Msg.promise.injEq, true_and] at hmsg
    rw [hmsg.1, hmsg.2]
    exact ⟨k, hk'⟩
  refine ⟨Q, hcard, ?_, ?_⟩
  · intro a ha
    obtain ⟨m, x, hsent⟩ := hpromised a ha
    exact ⟨m, x, hsent.commit⟩
  · rcases hvalue with hcalled | ⟨a, ha, m, hsent, hmax⟩
    · exact Or.inl (called_commit h hcalled)
    · refine Or.inr ⟨a, ha, m, hsent.commit, ?_⟩
      intro a' ha' m' x hsent'
      exact hmax a' ha' m' x (hold a' ha' m' x hsent')

/-- The proposal of a call that enters phase two, in the world that it leaves. -/
theorem backed_of_enterTwo (h : BallotsOk cfg (w.commit i e)) {r : Nat} {t : Routine}
    (hact : act cfg w i (.enterTwo r) = some e) (hr : (w.peers i).routines[r]? = some t)
    (hroutine : RoutineOk w i t) (hown : t.OwnValue)
    (htold : t.highestAcceptedID = 0 ∨ ∃ c ∈ t.read, c.acceptedID = t.highestAcceptedID)
    (q : Proposal N) (hq : q ∈ (w.commit i e).proposed) (hpeer : q.peer = i) (hstep : q.step = t.step)
    (hvalue : q.value = t.proposedValue) (hpromises : q.promises = t.read) :
    Backed (w.commit i e) i q.step q.id q.value := by
  obtain ⟨Q, hcard, hQ, hall⟩ := h.promisers q hq
  rw [hpeer] at hQ hall
  refine ⟨Q, hcard, ?_, ?_⟩
  · intro a ha
    obtain ⟨c, -, hsent⟩ := hQ a ha
    exact ⟨_, _, hsent⟩
  · by_cases hzero : t.highestAcceptedID = 0
    · refine Or.inl (called_commit hact ⟨t, List.mem_of_getElem? hr, hstep.symm, ?_⟩)
      rw [hvalue, hown hzero]
    · obtain ⟨c, hc, hhigh⟩ := htold.resolve_left hzero
      obtain ⟨a, ha, hsent⟩ := hall c (hpromises ▸ hc)
      obtain ⟨-, hlast, -⟩ := (h.acceptors a).honest _ _ _ _ _ hsent
      rw [hhigh] at hlast hsent
      -- The vote that the promise tells and the one behind the value are in one ballot.
      obtain ⟨v, hv, hvote⟩ := hlast.resolve_left hzero
      obtain ⟨a', hvote'⟩ := hroutine.value.resolve_left hzero
      rw [← hstep] at hvote'
      have hsame := h.votes.value_eq h.oneProposal hvote hvote'.commit
      rw [hv, hsame, ← hvalue] at hsent
      refine Or.inr ⟨a, ha, t.highestAcceptedID, hsent, ?_⟩
      rintro a' ha' m' x ⟨k, hk⟩
      obtain ⟨c', hc', k', hk'⟩ := hQ a' ha'
      have honce := (h.acceptors a').promiseOnce k k' _ _ _ _ _ _ _ _ hk hk'
      subst honce
      have hmsg := Option.some.inj (hk.symm.trans hk')
      simp only [Rumor.mk.injEq, Msg.promise.injEq, true_and] at hmsg
      rw [hmsg.1]
      exact (hroutine.read c' (hpromises ▸ hc')).2.1

/-- What a run keeps in which every call that enters phase two keeps to its own ballot. -/
structure ProposalsBacked (cfg : Config N) (w : World N) : Prop extends BallotsOk cfg w where
  own : ∀ j, ∀ t ∈ (w.peers j).routines, t.OwnValue
  backed : ∀ j s b v, w.Sent j (.propose s b v) → Backed w j s b v

theorem proposalsBacked_init (cfg : Config N) : ProposalsBacked cfg (World.init cfg) where
  toBallotsOk := ballotsOk_init cfg
  own := by simp [World.init, Peer.init]
  backed := by simp [World.init, World.Sent, World.At]

theorem proposalsBacked_step (w : World N) (ev : Event N) (w' : World N) (h : ProposalsBacked cfg w)
    (hown : OwnBallot w ev) (hstep : step cfg w ev = some w') : ProposalsBacked cfg w' := by
  unfold step at hstep
  rw [Option.map_eq_some_iff] at hstep
  obtain ⟨e, hact, rfl⟩ := hstep
  have hdoes := act_does cfg w ev.peer ev.action e hown.1 hact
  have hballots := h.toBallotsOk.commit hdoes
  refine ⟨hballots, ownValue_commit hact h.own, ?_⟩
  intro j s b v hsent
  rw [sent_commit] at hsent
  rcases hsent with hsent | ⟨rfl, hb⟩
  · exact (h.backed j s b v hsent).commit hact hballots.acceptors
  · obtain ⟨cs, hq⟩ := hdoes.sends_propose s b v hb
    obtain ⟨r, t, henter, hr, -, heq⟩ := act_proposal hact hq
    have hread := hown.2
    unfold ToldAgain at hread
    rw [henter] at hact hread
    rw [Proposal.mk.injEq] at heq
    have hmem : ⟨ev.peer, w.sent.length, s, b, v, cs⟩ ∈ (w.commit ev.peer e).proposed :=
      List.mem_append_right _ (Option.mem_toList.mpr hq)
    have hroutine := (h.proposers ev.peer).routines t (List.mem_of_getElem? hr)
    exact backed_of_enterTwo hballots hact hr hroutine (h.own ev.peer t (List.mem_of_getElem? hr))
      (hread t hr) _ hmem rfl heq.2.2.1 heq.2.2.2.2.1 heq.2.2.2.2.2

end Promises

/-- In every run whose calls of `propose` keep to their own ballots, a propose message stands on a
majority of promises for its ballot, and carries the own value or the highest vote among them. -/
theorem promise_quorum (cfg : Config N) (es : List (Event N)) (w : World N)
    (hown : Meets (step cfg) OwnBallot (World.init cfg) es)
    (hrun : run (step cfg) (World.init cfg) es = some w) (j : Fin N) (s b : Nat) (v : PaxosValue)
    (hsent : w.Sent j (.propose s b v)) : Backed w j s b v := by
  have hinv : ProposalsBacked cfg w :=
    run_invariant (ProposalsBacked cfg) proposalsBacked_step es (proposalsBacked_init cfg) hown hrun
  exact hinv.backed j s b v hsent

theorem quietRun_backed :
    ∃ w, run (step threePeers) (World.init threePeers) quietRun = some w ∧
      w.Sent 0 (.propose 0 1 firstValue) ∧ Backed w 0 0 1 firstValue := by
  have hsent : ((run (step threePeers) (World.init threePeers) quietRun).bind (·.sent[3]?))
      = some ⟨0, .propose 0 1 firstValue⟩ := by decide
  have hown : Meets (step threePeers) OwnBallot (World.init threePeers) quietRun := by decide
  obtain ⟨w, hrun, hw⟩ := Option.bind_eq_some_iff.mp hsent
  exact ⟨w, hrun, ⟨3, hw⟩, promise_quorum threePeers quietRun w hown hrun 0 0 1 firstValue ⟨3, hw⟩⟩

/-- All three peers promise ballot 1. Peer 0 times out after one of these promises, prepares ballot 4,
and finds the other two in the channel. -/
def staleRun : List (Event 3) :=
  does 0 [.propose firstValue, .prepare 0, .deliver 0] ++ does 1 [.deliver 0] ++ does 2 [.deliver 0] ++
  does 0 [.deliver 1, .deliver 2, .deliver 3, .timeoutOne 0, .readPromise 0, .prepare 0] ++
  does 0 [.readPromise 0, .readPromise 0, .enterTwo 0]

theorem staleRun_not_backed :
    ∃ w, run (step threePeers) (World.init threePeers) staleRun = some w ∧
      w.Sent 0 (.propose 0 4 firstValue) ∧ ¬Backed w 0 0 4 firstValue := by
  have hsent : (run (step threePeers) (World.init threePeers) staleRun).map (·.sent) = some
      [⟨0, .prepare 0 1 0⟩, ⟨0, .promise 0 0 1 0 none⟩, ⟨1, .promise 0 0 1 0 none⟩,
        ⟨2, .promise 0 0 1 0 none⟩, ⟨0, .prepare 0 4 0⟩, ⟨0, .propose 0 4 firstValue⟩] := by decide
  obtain ⟨w, hrun, hw⟩ := Option.map_eq_some_iff.mp hsent
  refine ⟨w, hrun, ⟨5, by rw [World.At, hw]; rfl⟩, ?_⟩
  rintro ⟨Q, hcard, hpromised, -⟩
  obtain ⟨a, ha⟩ := Finset.card_pos.mp (Nat.lt_of_lt_of_le (by decide : 0 < threshold 3) hcard)
  obtain ⟨m, x, k, hk⟩ := hpromised a ha
  have hmem := List.mem_of_getElem? hk
  simp [hw] at hmem

/-! ## Votes -/

/-- In every run that mixes no ballots, a decision stands on the votes of a majority in one ballot. -/
theorem accept_quorum (cfg : Config N) (es : List (Event N)) (w : World N)
    (hone : Meets (step cfg) OneBallot (World.init cfg) es)
    (hrun : run (step cfg) (World.init cfg) es = some w) (d : Decision N) (hd : d ∈ w.decided) :
    ∃ b, ∃ Q : Finset (Fin N), threshold N ≤ Q.card ∧
      ∀ a ∈ Q, w.Sent a (.accept d.step b d.value) := by
  have hinv : Inv cfg w := run_invariant (Inv cfg) inv_step es (inv_init cfg) hone hrun
  exact hinv.decisions d hd

theorem quietRun_quorum :
    ∃ w, run (step threePeers) (World.init threePeers) quietRun = some w ∧
      ⟨1, 0, firstValue⟩ ∈ w.decided ∧ ∃ b, ∃ Q : Finset (Fin 3), threshold 3 ≤ Q.card ∧
        ∀ a ∈ Q, w.Sent a (.accept 0 b firstValue) := by
  have hdecided : (run (step threePeers) (World.init threePeers) quietRun).map (·.decided)
      = some [⟨0, 0, firstValue⟩, ⟨1, 0, firstValue⟩] := by decide
  have hone : Meets (step threePeers) OneBallot (World.init threePeers) quietRun := by decide
  obtain ⟨w, hrun, hw⟩ := Option.map_eq_some_iff.mp hdecided
  have hd : ⟨1, 0, firstValue⟩ ∈ w.decided := by simp [hw]
  exact ⟨w, hrun, hd, accept_quorum threePeers quietRun w hone hrun ⟨1, 0, firstValue⟩ hd⟩

/-- The origin of every vote for `v` is `a`. -/
def votesOnlyFrom (a : Fin N) (v : PaxosValue) (rumor : Rumor N) : Bool :=
  match rumor.msg with
  | .accept _ _ value => value ≠ v || rumor.origin = a
  | _ => true

/-- Peer 0 decides on the first value, which nobody but itself has accepted. -/
theorem mixedRun_no_quorum :
    ∃ w, run (step threePeers) (World.init threePeers) mixedRun = some w ∧
      ⟨0, 0, firstValue⟩ ∈ w.decided ∧ ¬∃ b, ∃ Q : Finset (Fin 3), threshold 3 ≤ Q.card ∧
        ∀ a ∈ Q, w.Sent a (.accept 0 b firstValue) := by
  have hcheck : (run (step threePeers) (World.init threePeers) mixedRun).map
      (fun w => (w.decided, w.sent.all (votesOnlyFrom 0 firstValue)))
      = some ([⟨0, 0, firstValue⟩, ⟨1, 0, secondValue⟩], true) := by decide
  obtain ⟨w, hrun, hw⟩ := Option.map_eq_some_iff.mp hcheck
  rw [Prod.mk.injEq, List.all_eq_true] at hw
  refine ⟨w, hrun, by simp [hw.1], ?_⟩
  rintro ⟨b, Q, hcard, hvotes⟩
  have hsub : Q ⊆ {0} := by
    intro a ha
    obtain ⟨k, hk⟩ := hvotes a ha
    have hfrom := hw.2 _ (List.mem_of_getElem? hk)
    simpa [votesOnlyFrom] using hfrom
  have hle := Nat.le_trans hcard (Finset.card_le_card hsub)
  exact absurd hle (by decide)

end MarketPeer.Paxos
