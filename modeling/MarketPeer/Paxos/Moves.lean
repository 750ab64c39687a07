import MarketPeer.Paxos.Model

/-!
# What a step can do

`Does` lists every way a step of a peer ends, with what holds before it. The
invariants split on it and never open a callback or a routine again.
-/

namespace MarketPeer.Paxos

variable {N : Nat}

/-- What a run has to avoid: a proposer that enters phase two on a promise for another ballot, a
learner that declares a value on accepts of more than one ballot, and counters that overflow. -/
def OneBallot (w : World N) (e : Event N) : Prop :=
  match e.action with
  | .enterTwo r => ∀ t, (w.peers e.peer).routines[r]? = some t →
      ∀ c ∈ t.read, c.id = (w.peers e.peer).proposalID
  | .learn => ∀ c rest, (w.peers e.peer).acceptCh = c :: rest →
      threshold N ≤ (((w.peers e.peer).idAccepts ++ [c]).filter (·.value.uniqID = c.value.uniqID)).length →
      ∀ d ∈ (w.peers e.peer).idAccepts, d.value.uniqID = c.value.uniqID → d.id = c.id
  | .timeoutOne _ => (w.peers e.peer).proposalID + N < 2 ^ 64
  | .timeoutTwo _ => (w.peers e.peer).proposalID + N < 2 ^ 64
  | .tlcAdvance => (w.peers e.peer).step + 1 < 2 ^ 64
  | _ => True

instance (w : World N) (e : Event N) : Decidable (OneBallot w e) :=
  match e with
  | ⟨i, .enterTwo r⟩ =>
    decidable_of_iff (∀ t ∈ (w.peers i).routines[r]?, ∀ c ∈ t.read, c.id = (w.peers i).proposalID) Iff.rfl
  | ⟨i, .learn⟩ =>
    decidable_of_iff (∀ c ∈ (w.peers i).acceptCh.head?,
      threshold N ≤ (((w.peers i).idAccepts ++ [c]).filter (·.value.uniqID = c.value.uniqID)).length →
        ∀ d ∈ (w.peers i).idAccepts, d.value.uniqID = c.value.uniqID → d.id = c.id)
      (by cases h : (w.peers i).acceptCh <;> simp [OneBallot, h])
  | ⟨i, .timeoutOne _⟩ => inferInstanceAs (Decidable ((w.peers i).proposalID + N < 2 ^ 64))
  | ⟨i, .timeoutTwo _⟩ => inferInstanceAs (Decidable ((w.peers i).proposalID + N < 2 ^ 64))
  | ⟨i, .tlcAdvance⟩ => inferInstanceAs (Decidable ((w.peers i).step + 1 < 2 ^ 64))
  | ⟨_, .propose _⟩ => isTrue trivial
  | ⟨_, .deliver _⟩ => isTrue trivial
  | ⟨_, .prepare _⟩ => isTrue trivial
  | ⟨_, .readPromise _⟩ => isTrue trivial
  | ⟨_, .signalled _⟩ => isTrue trivial
  | ⟨_, .unwind _⟩ => isTrue trivial
  | ⟨_, .tlcRead⟩ => isTrue trivial

/-- `OneBallot` for the proposers alone. -/
def OwnPromises (w : World N) (e : Event N) : Prop :=
  match e.action with
  | .enterTwo r => ∀ t, (w.peers e.peer).routines[r]? = some t →
      ∀ c ∈ t.read, c.id = (w.peers e.peer).proposalID
  | .timeoutOne _ => (w.peers e.peer).proposalID + N < 2 ^ 64
  | .timeoutTwo _ => (w.peers e.peer).proposalID + N < 2 ^ 64
  | .tlcAdvance => (w.peers e.peer).step + 1 < 2 ^ 64
  | _ => True

instance (w : World N) (e : Event N) : Decidable (OwnPromises w e) :=
  match e with
  | ⟨i, .enterTwo r⟩ =>
    decidable_of_iff (∀ t ∈ (w.peers i).routines[r]?, ∀ c ∈ t.read, c.id = (w.peers i).proposalID) Iff.rfl
  | ⟨i, .timeoutOne _⟩ => inferInstanceAs (Decidable ((w.peers i).proposalID + N < 2 ^ 64))
  | ⟨i, .timeoutTwo _⟩ => inferInstanceAs (Decidable ((w.peers i).proposalID + N < 2 ^ 64))
  | ⟨i, .tlcAdvance⟩ => inferInstanceAs (Decidable ((w.peers i).step + 1 < 2 ^ 64))
  | ⟨_, .propose _⟩ => isTrue trivial
  | ⟨_, .deliver _⟩ => isTrue trivial
  | ⟨_, .prepare _⟩ => isTrue trivial
  | ⟨_, .readPromise _⟩ => isTrue trivial
  | ⟨_, .signalled _⟩ => isTrue trivial
  | ⟨_, .unwind _⟩ => isTrue trivial
  | ⟨_, .learn⟩ => isTrue trivial
  | ⟨_, .tlcRead⟩ => isTrue trivial

theorem OneBallot.ownPromises {w : World N} {e : Event N} (h : OneBallot w e) : OwnPromises w e := by
  obtain ⟨i, a⟩ := e
  unfold OneBallot at h
  unfold OwnPromises
  cases a with
  | enterTwo r => exact h
  | timeoutOne r => exact h
  | timeoutTwo r => exact h
  | tlcAdvance => exact h
  | _ => trivial

/-- Nothing that an invariant looks at has changed. -/
structure Frame (p p' : Peer) : Prop where
  step : p'.step = p.step
  proposalID : p'.proposalID = p.proposalID
  proposalMaxID : p'.proposalMaxID = p.proposalMaxID
  acceptedID : p'.acceptedID = p.acceptedID
  acceptedValue : p'.acceptedValue = p.acceptedValue
  promiseCh : p'.promiseCh = p.promiseCh
  acceptCh : p'.acceptCh = p.acceptCh
  idAccepts : p'.idAccepts = p.idAccepts
  routines : p'.routines = p.routines
  processed : p.processed ⊆ p'.processed

/-- A call of `propose` that moves on without reading a promise. -/
structure RoutineMove (t t' : Routine) : Prop where
  step : t'.step = t.step
  read : t'.read = t.read ∨ t'.read = []
  value : (t'.highestAcceptedID = t.highestAcceptedID ∧ t'.proposedValue = t.proposedValue) ∨
    (t'.highestAcceptedID = 0 ∧ t'.read = [])

structure RoutineRead (t t' : Routine) (c : Promise) : Prop where
  step : t'.step = t.step
  read : t'.read = t.read ++ [c]
  value : (c.acceptedID ≤ t.highestAcceptedID ∧ t'.highestAcceptedID = t.highestAcceptedID ∧
      t'.proposedValue = t.proposedValue) ∨
    (t.highestAcceptedID < c.acceptedID ∧ t'.highestAcceptedID = c.acceptedID ∧
      c.acceptedValue = some t'.proposedValue)

structure Advanced (paxosID : Nat) (p p' : Peer) : Prop where
  step : p'.step = p.step + 1
  proposalID : p'.proposalID = paxosID
  proposalMaxID : p'.proposalMaxID = 0
  acceptedID : p'.acceptedID = 0
  promiseCh : p'.promiseCh = []
  acceptCh : p'.acceptCh = []
  idAccepts : p'.idAccepts = []
  routines : p'.routines = p.routines
  processed : p'.processed = p.processed

/-- How a step of peer `i` in state `p` ends. -/
inductive Does (cfg : Config N) (sent : List (Rumor N)) (i : Fin N) (p : Peer) : Effect N → Prop
  | idle (p' : Peer) (msg : Option (Msg N)) (hframe : Frame p p')
      (hmsg : ∀ m ∈ msg, ∃ s v, m = Msg.tlc s v) : Does cfg sent i p ⟨p', msg, none, none⟩
  | promised (k : Nat) (o source : Fin N) (id : Nat)
      (hsent : sent[k]? = some ⟨o, .prepare p.step id source⟩) (hid : p.proposalMaxID < id) :
      Does cfg sent i p ⟨{ p with processed := k :: p.processed, proposalMaxID := id },
        some (.promise source p.step id p.acceptedID p.acceptedValue), none, none⟩
  | accepted (k : Nat) (o : Fin N) (value : PaxosValue) (hk : k ∉ p.processed)
      (hsent : sent[k]? = some ⟨o, .propose p.step p.proposalMaxID value⟩) :
      Does cfg sent i p
        ⟨{ p with processed := k :: p.processed, acceptedID := p.proposalMaxID, acceptedValue := some value },
          some (.accept p.step p.proposalMaxID value), none, none⟩
  | promiseIn (o : Fin N) (c : Promise) (hk : c.rumor ∉ p.processed) (hstep : c.step = p.step)
      (hsent : sent[c.rumor]? = some ⟨o, .promise i c.step c.id c.acceptedID c.acceptedValue⟩) :
      Does cfg sent i p ⟨{ p with processed := c.rumor :: p.processed, promiseCh := p.promiseCh ++ [c] },
        none, none, none⟩
  | acceptIn (o : Fin N) (c : Accept) (hk : c.rumor ∉ p.processed) (hstep : c.step = p.step)
      (hsent : sent[c.rumor]? = some ⟨o, .accept c.step c.id c.value⟩) :
      Does cfg sent i p ⟨{ p with processed := c.rumor :: p.processed, acceptCh := p.acceptCh ++ [c] },
        none, none, none⟩
  | started (t : Routine) (phase : Phase) (hstep : t.step = p.step) (hread : t.read = [])
      (hhighest : t.highestAcceptedID = 0) :
      Does cfg sent i p ⟨{ p with phase := phase, routines := p.routines ++ [t] }, none, none, none⟩
  | moved (r : Nat) (t t' : Routine) (phase : Phase) (signal : Option PaxosValue)
      (hr : p.routines[r]? = some t) (hmove : RoutineMove t t') :
      Does cfg sent i p ⟨{ p.setRoutine r t' with phase := phase, signal := signal }, none, none, none⟩
  | prepared (r : Nat) (t t' : Routine) (hr : p.routines[r]? = some t) (hmove : RoutineMove t t') :
      Does cfg sent i p ⟨{ p.setRoutine r t' with phase := .phaseOne },
        some (.prepare p.step p.proposalID i), none, none⟩
  | readOne (r : Nat) (t t' : Routine) (c : Promise) (rest : List Promise)
      (hr : p.routines[r]? = some t) (hch : p.promiseCh = c :: rest) (hstep : t.step = p.step)
      (hread : RoutineRead t t' c) :
      Does cfg sent i p ⟨({ p with promiseCh := rest } : Peer).setRoutine r t', none, none, none⟩
  | timedOut (r : Nat) (t t' : Routine) (hr : p.routines[r]? = some t) (hmove : RoutineMove t t') :
      Does cfg sent i p ⟨{ p.setRoutine r t' with proposalID := p.proposalID + N }, none, none, none⟩
  | entered (r : Nat) (t t' : Routine) (hr : p.routines[r]? = some t) (hstep : t.step = p.step)
      (hlen : t.read.length = threshold N) (hmove : RoutineMove t t') (hread : t'.read = [])
      (hone : ∀ c ∈ t.read, c.id = p.proposalID) :
      Does cfg sent i p ⟨{ p.setRoutine r t' with phase := .phaseTwo },
        some (.propose p.step p.proposalID t.proposedValue),
        some ⟨i, sent.length, p.step, p.proposalID, t.proposedValue, t.read⟩, none⟩
  | learnt (c : Accept) (rest : List Accept) (hch : p.acceptCh = c :: rest) :
      Does cfg sent i p ⟨{ p with acceptCh := rest, idAccepts := p.idAccepts ++ [c] }, none, none, none⟩
  | declared (c : Accept) (rest : List Accept) (signal : Option PaxosValue) (hch : p.acceptCh = c :: rest)
      (hcount : threshold N ≤ ((p.idAccepts ++ [c]).filter (·.value.uniqID = c.value.uniqID)).length) :
      Does cfg sent i p
        ⟨{ p with acceptCh := rest, idAccepts := p.idAccepts ++ [c], learned := true, signal := signal },
          some (.tlc p.step c.value), none, some ⟨i, p.step, c.value⟩⟩
  | advanced (p' : Peer) (h : Advanced (cfg.paxosID i) p p') : Does cfg sent i p ⟨p', none, none, none⟩

section Cases

variable (cfg : Config N) (sent : List (Rumor N)) (i : Fin N) (p : Peer)

theorem Frame.refl : Frame p p := ⟨rfl, rfl, rfl, rfl, rfl, rfl, rfl, rfl, rfl, List.Subset.refl _⟩

theorem Does.of_frame {p' : Peer} (h : Frame p p') : Does cfg sent i p ⟨p', none, none, none⟩ :=
  .idle p' none h (by simp)

theorem Frame.process (k : Nat) : Frame p { p with processed := k :: p.processed } :=
  ⟨rfl, rfl, rfl, rfl, rfl, rfl, rfl, rfl, rfl, List.subset_cons_self k _⟩

theorem exitRoutine_does (r : Nat) (t : Routine) (hr : p.routines[r]? = some t) :
    Does cfg sent i p (exitRoutine p r t) :=
  .moved r t _ p.phase p.signal hr ⟨rfl, Or.inl rfl, Or.inl ⟨rfl, rfl⟩⟩

theorem deliver_does (w : World N) (k : Nat) (e : Effect N) (h : deliver w i k = some e) :
    Does cfg w.sent i (w.peers i) e := by
  unfold deliver at h
  simp only [] at h
  split_ifs at h with hk
  rw [Option.bind_eq_some_iff] at h
  obtain ⟨⟨o, msg⟩, hsent, h⟩ := h
  have hsame := Does.of_frame cfg w.sent i (w.peers i) (Frame.process (w.peers i) k)
  cases msg with
  | prepare step id source =>
    simp only [processRumor, paxosPrepareCallback, Option.some.injEq] at h
    split_ifs at h with h1 h2
    · rw [← h]; exact hsame
    · rw [← h]; exact hsame
    · rw [← h]
      rw [not_not] at h1
      subst h1
      exact .promised k o source id hsent (Nat.lt_of_not_le h2)
  | promise recipient step id acceptedID acceptedValue =>
    simp only [processRumor, paxosPromiseCallback] at h
    split_ifs at h with h1 h2 h3 h4
    · rw [← Option.some.inj h]; exact hsame
    · rw [← Option.some.inj h]; exact hsame
    · rw [← Option.some.inj h]; exact hsame
    · rw [not_not] at h1
      subst h1
      rw [← Option.some.inj h]
      exact .promiseIn o ⟨k, step, id, acceptedID, acceptedValue⟩ hk (not_not.mp h2) hsent
  | propose step id value =>
    simp only [processRumor, paxosProposeCallback, Option.some.injEq] at h
    split_ifs at h with h1 h2
    · rw [← h]; exact hsame
    · rw [← h]; exact hsame
    · rw [← h]
      rw [not_not] at h1 h2
      subst h1 h2
      exact .accepted k o value hk hsent
  | accept step id value =>
    simp only [processRumor, paxosAcceptCallback, Option.some.injEq] at h
    split_ifs at h with h1 h2
    · rw [← h]; exact hsame
    · rw [← h]
      exact .acceptIn o ⟨k, step, id, value⟩ hk (not_not.mp h1) hsent
    · rw [← h]; exact hsame
  | tlc step value =>
    simp only [processRumor, tlcCallback] at h
    split_ifs at h with h1 h2
    · rw [← Option.some.inj h]; exact hsame
    · rw [← Option.some.inj h]
      exact Does.of_frame cfg w.sent i (w.peers i)
        ⟨rfl, rfl, rfl, rfl, rfl, rfl, rfl, rfl, rfl, List.subset_cons_self k _⟩

theorem propose_does (value : PaxosValue) : Does cfg sent i p (propose p value) := by
  unfold propose
  split_ifs
  · exact .started _ _ rfl rfl rfl
  · exact Does.of_frame cfg sent i p (Frame.refl p)

variable {p} {r : Nat} {t : Routine} (hr : p.routines[r]? = some t)
include hr

theorem prepare_does (e : Effect N) (h : prepare i p r t = some e) : Does cfg sent i p e := by
  unfold prepare at h
  split_ifs at h with h1 h2
  · rw [← Option.some.inj h]; exact exitRoutine_does cfg sent i p r t hr
  · rw [not_not] at h2
    rw [← Option.some.inj h, h2]
    exact .prepared r t _ hr ⟨h2.symm, Or.inr rfl, Or.inl ⟨rfl, rfl⟩⟩

theorem readPromise_does (e : Effect N) (h : readPromise p r t = some e) : Does cfg sent i p e := by
  unfold readPromise at h
  split at h
  · rename_i fired c rest hpc hch
    split_ifs at h with h1 h2
    · rw [Option.map_eq_some_iff] at h
      obtain ⟨v, hv, rfl⟩ := h
      exact .readOne r t _ c rest hr hch h1.1 ⟨rfl, rfl, Or.inr ⟨h2, rfl, hv⟩⟩
    · rw [← Option.some.inj h]
      exact .readOne r t _ c rest hr hch h1.1 ⟨rfl, rfl, Or.inl ⟨Nat.le_of_not_lt h2, rfl, rfl⟩⟩
  · cases h

theorem timeoutOne_does (hroom : p.proposalID + N < 2 ^ 64) (e : Effect N)
    (h : timeoutOne p r t = some e) : Does cfg sent i p e := by
  unfold timeoutOne nextProposalID at h
  rw [Nat.mod_eq_of_lt hroom] at h
  split_ifs at h with h1 h2
  · rw [← Option.some.inj h]; exact exitRoutine_does cfg sent i p r t hr
  · rw [← Option.some.inj h]
    exact .timedOut r t _ hr ⟨rfl, Or.inl rfl, Or.inl ⟨rfl, rfl⟩⟩

theorem enterTwo_does (hone : ∀ c ∈ t.read, c.id = p.proposalID) (e : Effect N)
    (h : enterTwo i sent.length p r t = some e) : Does cfg sent i p e := by
  unfold enterTwo at h
  split_ifs at h with h1 h2
  · rw [← Option.some.inj h]; exact exitRoutine_does cfg sent i p r t hr
  · rw [not_not] at h2
    rw [← Option.some.inj h, h2]
    exact .entered r t _ hr h2 h1.2 ⟨h2.symm, Or.inr rfl, Or.inl ⟨rfl, rfl⟩⟩ rfl hone

theorem signalled_does (e : Effect N) (h : signalled p r t = some e) : Does cfg sent i p e := by
  unfold signalled at h
  split_ifs at h
  rw [← Option.some.inj h]
  exact .moved r t _ p.phase none hr ⟨rfl, Or.inl rfl, Or.inl ⟨rfl, rfl⟩⟩

theorem timeoutTwo_does (hroom : p.proposalID + N < 2 ^ 64) (e : Effect N)
    (h : timeoutTwo p r t = some e) : Does cfg sent i p e := by
  unfold timeoutTwo nextProposalID at h
  rw [Nat.mod_eq_of_lt hroom] at h
  split_ifs at h with h1 h2
  · rw [← Option.some.inj h]; exact exitRoutine_does cfg sent i p r t hr
  · rw [← Option.some.inj h]
    exact .timedOut r t _ hr ⟨rfl, Or.inr rfl, Or.inr ⟨rfl, rfl⟩⟩

theorem unwind_does (e : Effect N) (h : unwind p r t = some e) : Does cfg sent i p e := by
  unfold unwind at h
  by_cases h1 : t.pc = .exiting
  · rw [if_pos h1] at h
    rw [← Option.some.inj h]
    refine .moved r t _ _ p.signal hr ?_
    split
    · exact ⟨rfl, Or.inl rfl, Or.inl ⟨rfl, rfl⟩⟩
    · exact ⟨rfl, Or.inl rfl, Or.inl ⟨rfl, rfl⟩⟩
  · rw [if_neg h1] at h
    cases h

omit hr

theorem learn_does (e : Effect N) (h : learn i p = some e) : Does cfg sent i p e := by
  unfold learn at h
  split at h
  · cases h
  · rename_i c rest hch
    simp only [] at h
    split_ifs at h with h1 h2 h3
    · rw [← Option.some.inj h]
      exact .declared c rest _ hch h2
    · rw [← Option.some.inj h]
      exact .declared c rest _ hch h2
    · rw [← Option.some.inj h]
      exact .learnt c rest hch

theorem tlcRead_does (e : Effect N) (h : tlcRead p = some e) : Does cfg sent i p e := by
  have hframe : ∀ tlcCh stepTLCMsgs tlcSent advancing,
      Frame p { p with tlcCh, stepTLCMsgs, tlcSent, advancing } := fun _ _ _ _ =>
    ⟨rfl, rfl, rfl, rfl, rfl, rfl, rfl, rfl, rfl, List.Subset.refl _⟩
  unfold tlcRead at h
  split at h
  · rename_i tlc rest hadv hch
    simp only [] at h
    split_ifs at h with h1 h2 h3
    · rw [← Option.some.inj h]
      exact Does.of_frame cfg sent i p (hframe _ _ _ _)
    · rw [← Option.some.inj h]
      exact Does.of_frame cfg sent i p (hframe _ _ _ _)
    · rw [← Option.some.inj h]
      exact .idle _ _ (hframe _ _ _ _) (by simp)
    · rw [← Option.some.inj h]
      exact .idle _ _ (hframe _ _ _ _) (by simp)
  · cases h

theorem tlcAdvance_does (hroom : p.step + 1 < 2 ^ 64) (e : Effect N)
    (h : tlcAdvance (cfg.paxosID i) p = some e) : Does cfg sent i p e := by
  unfold tlcAdvance at h
  rw [Nat.mod_eq_of_lt hroom, Option.map_eq_some_iff] at h
  obtain ⟨tlc, -, rfl⟩ := h
  split_ifs
  · exact Does.of_frame cfg sent i p ⟨rfl, rfl, rfl, rfl, rfl, rfl, rfl, rfl, rfl, List.Subset.refl _⟩
  · exact .advanced _ ⟨rfl, rfl, rfl, rfl, rfl, rfl, rfl, rfl, rfl⟩

end Cases

/-- Every step that `OwnPromises` allows is one of the moves. -/
theorem act_does (cfg : Config N) (w : World N) (i : Fin N) (a : Action) (e : Effect N)
    (hone : OwnPromises w ⟨i, a⟩) (h : act cfg w i a = some e) : Does cfg w.sent i (w.peers i) e := by
  cases a with
  | propose value => rw [← Option.some.inj h]; exact propose_does cfg w.sent i (w.peers i) value
  | deliver k => exact deliver_does cfg i w k e h
  | prepare r =>
    obtain ⟨t, hr, h⟩ := Option.bind_eq_some_iff.mp h
    exact prepare_does cfg w.sent i hr e h
  | readPromise r =>
    obtain ⟨t, hr, h⟩ := Option.bind_eq_some_iff.mp h
    exact readPromise_does cfg w.sent i hr e h
  | timeoutOne r =>
    obtain ⟨t, hr, h⟩ := Option.bind_eq_some_iff.mp h
    exact timeoutOne_does cfg w.sent i hr hone e h
  | enterTwo r =>
    obtain ⟨t, hr, h⟩ := Option.bind_eq_some_iff.mp h
    exact enterTwo_does cfg w.sent i hr (hone t hr) e h
  | signalled r =>
    obtain ⟨t, hr, h⟩ := Option.bind_eq_some_iff.mp h
    exact signalled_does cfg w.sent i hr e h
  | timeoutTwo r =>
    obtain ⟨t, hr, h⟩ := Option.bind_eq_some_iff.mp h
    exact timeoutTwo_does cfg w.sent i hr hone e h
  | unwind r =>
    obtain ⟨t, hr, h⟩ := Option.bind_eq_some_iff.mp h
    exact unwind_does cfg w.sent i hr e h
  | learn => exact learn_does cfg w.sent i e h
  | tlcRead => exact tlcRead_does cfg w.sent i e h
  | tlcAdvance => exact tlcAdvance_does cfg w.sent i hone e h

/-! ## What a step sends and changes -/

/-- The proposer has come to ballot `b` of step `s`, or is past it. -/
def Peer.Reached (p : Peer) (s b : Nat) : Prop := s ≤ p.step ∧ (s = p.step → b ≤ p.proposalID)

def Peer.pool (p : Peer) : List Accept := p.idAccepts ++ p.acceptCh

theorem tlc_only {msg : Option (Msg N)} (hmsg : ∀ m ∈ msg, ∃ s v, m = Msg.tlc s v) {m : Msg N}
    (hm : msg = some m) (hne : ∀ s v, m ≠ .tlc s v) : False := by
  obtain ⟨s, v, rfl⟩ := hmsg m hm
  exact hne s v rfl

section Effects

variable {cfg : Config N} {sent : List (Rumor N)} {i : Fin N} {p : Peer} {e : Effect N}
  (h : Does cfg sent i p e)
include h

theorem Does.reached (s b : Nat) (hr : p.Reached s b) : e.peer.Reached s b := by
  unfold Peer.Reached at hr ⊢
  cases h with
  | idle p' msg hframe hmsg =>
    rw [hframe.step, hframe.proposalID]
    exact hr
  | timedOut => exact ⟨hr.1, fun hs => Nat.le_add_right_of_le (hr.2 hs)⟩
  | advanced p' hadv =>
    rw [hadv.step]
    exact ⟨by omega, by omega⟩
  | _ => exact hr

theorem Does.proposalID :
    e.peer.proposalID = p.proposalID ∨ e.peer.proposalID = p.proposalID + N ∨
      e.peer.proposalID = cfg.paxosID i := by
  cases h with
  | idle p' msg hframe hmsg => exact Or.inl hframe.proposalID
  | timedOut => exact Or.inr (Or.inl rfl)
  | advanced p' hadv => exact Or.inr (Or.inr hadv.proposalID)
  | _ => exact Or.inl rfl

theorem Does.processed_subset : p.processed ⊆ e.peer.processed := by
  cases h with
  | idle p' msg hframe hmsg => exact hframe.processed
  | promised k => exact List.subset_cons_self k _
  | accepted k => exact List.subset_cons_self k _
  | promiseIn o c => exact List.subset_cons_self c.rumor _
  | acceptIn o c => exact List.subset_cons_self c.rumor _
  | advanced p' hadv => exact fun k hk => hadv.processed ▸ hk
  | _ => exact List.Subset.refl _

theorem Does.sends_prepare (s b : Nat) (j : Fin N) (hb : e.broadcast = some (.prepare s b j)) :
    j = i ∧ e.peer.Reached s b := by
  cases h with
  | idle p' msg hframe hmsg => exact (tlc_only hmsg hb (by simp)).elim
  | prepared r t t' hr hmove =>
    simp only [Option.some.injEq, Msg.prepare.injEq] at hb
    obtain ⟨rfl, rfl, rfl⟩ := hb
    exact ⟨rfl, Nat.le_refl _, fun _ => Nat.le_refl _⟩
  | _ => simp at hb

theorem Does.sends_promise (j : Fin N) (s b m : Nat) (x : Option PaxosValue)
    (hb : e.broadcast = some (.promise j s b m x)) :
    ∃ (k : Nat) (o : Fin N), sent[k]? = some ⟨o, .prepare s b j⟩ := by
  cases h with
  | idle p' msg hframe hmsg => exact (tlc_only hmsg hb (by simp)).elim
  | promised k o source id hsent hid =>
    simp only [Option.some.injEq, Msg.promise.injEq] at hb
    obtain ⟨rfl, rfl, rfl, -, -⟩ := hb
    exact ⟨k, o, hsent⟩
  | _ => simp at hb

theorem Does.sends_propose (s b : Nat) (v : PaxosValue) (hb : e.broadcast = some (.propose s b v)) :
    ∃ cs, e.proposal = some ⟨i, sent.length, s, b, v, cs⟩ := by
  cases h with
  | idle p' msg hframe hmsg => exact (tlc_only hmsg hb (by simp)).elim
  | entered r t t' hr hstep hlen hmove hread hone =>
    simp only [Option.some.injEq, Msg.propose.injEq] at hb
    obtain ⟨rfl, rfl, rfl⟩ := hb
    exact ⟨t.read, rfl⟩
  | _ => simp at hb

theorem Does.sends_accept (s b : Nat) (v : PaxosValue) (hb : e.broadcast = some (.accept s b v)) :
    ∃ (k : Nat) (o : Fin N),
      sent[k]? = some ⟨o, .propose s b v⟩ ∧ k ∉ p.processed ∧ k ∈ e.peer.processed := by
  cases h with
  | idle p' msg hframe hmsg => exact (tlc_only hmsg hb (by simp)).elim
  | accepted k o value hk hsent =>
    simp only [Option.some.injEq, Msg.accept.injEq] at hb
    obtain ⟨rfl, rfl, rfl⟩ := hb
    exact ⟨k, o, hsent, hk, List.mem_cons_self⟩
  | _ => simp at hb

theorem Does.channel (c : Promise) (hc : c ∈ e.peer.promiseCh) :
    (c ∈ p.promiseCh ∧ e.peer.step = p.step) ∨ (c.step = e.peer.step ∧ ∃ o : Fin N,
      sent[c.rumor]? = some ⟨o, .promise i c.step c.id c.acceptedID c.acceptedValue⟩) := by
  cases h with
  | idle p' msg hframe hmsg => exact Or.inl ⟨hframe.promiseCh ▸ hc, hframe.step⟩
  | promiseIn o c' hk hstep hsent =>
    rcases List.mem_append.mp hc with hc | hc
    · exact Or.inl ⟨hc, rfl⟩
    · rw [List.mem_singleton.mp hc]
      exact Or.inr ⟨hstep, o, hsent⟩
  | readOne r t t' c' rest hr hch hstep hread =>
    exact Or.inl ⟨hch ▸ List.mem_cons_of_mem c' hc, rfl⟩
  | advanced p' hadv => simp [hadv.promiseCh] at hc
  | _ => exact Or.inl ⟨hc, rfl⟩

theorem Does.routines (t' : Routine) (ht' : t' ∈ e.peer.routines) :
    (t'.step = p.step ∧ t'.read = [] ∧ t'.highestAcceptedID = 0) ∨
    (∃ t ∈ p.routines, RoutineMove t t') ∨
    (∃ t ∈ p.routines, ∃ c ∈ p.promiseCh, t.step = p.step ∧ RoutineRead t t' c) := by
  have hold : t' ∈ p.routines → ∃ t ∈ p.routines, RoutineMove t t' := fun ht' =>
    ⟨t', ht', rfl, Or.inl rfl, Or.inl ⟨rfl, rfl⟩⟩
  have hset : ∀ r t t1, p.routines[r]? = some t → RoutineMove t t1 → t' ∈ p.routines.set r t1 →
      ∃ t ∈ p.routines, RoutineMove t t' := by
    intro r t t1 hr hmove hmem
    rcases List.mem_or_eq_of_mem_set hmem with hmem | rfl
    · exact hold hmem
    · exact ⟨t, List.mem_of_getElem? hr, hmove⟩
  cases h with
  | idle p' msg hframe hmsg => exact Or.inr (Or.inl (hold (hframe.routines ▸ ht')))
  | advanced p' hadv => exact Or.inr (Or.inl (hold (hadv.routines ▸ ht')))
  | started t phase hstep hread hhighest =>
    rcases List.mem_append.mp ht' with ht' | ht'
    · exact Or.inr (Or.inl (hold ht'))
    · rw [List.mem_singleton.mp ht']
      exact Or.inl ⟨hstep, hread, hhighest⟩
  | moved r t t1 phase signal hr hmove => exact Or.inr (Or.inl (hset r t t1 hr hmove ht'))
  | prepared r t t1 hr hmove => exact Or.inr (Or.inl (hset r t t1 hr hmove ht'))
  | timedOut r t t1 hr hmove => exact Or.inr (Or.inl (hset r t t1 hr hmove ht'))
  | entered r t t1 hr hstep hlen hmove => exact Or.inr (Or.inl (hset r t t1 hr hmove ht'))
  | readOne r t t1 c rest hr hch hstep hread =>
    rcases List.mem_or_eq_of_mem_set ht' with ht' | rfl
    · exact Or.inr (Or.inl (hold ht'))
    · exact Or.inr (Or.inr ⟨t, List.mem_of_getElem? hr, c, hch ▸ List.mem_cons_self, hstep, hread⟩)
  | _ => exact Or.inr (Or.inl (hold ht'))

theorem Does.proposes (q : Proposal N) (hq : e.proposal = some q) :
    ∃ t ∈ p.routines, q = ⟨i, sent.length, p.step, p.proposalID, t.proposedValue, t.read⟩ ∧
      t.step = p.step ∧ t.read.length = threshold N ∧ ∀ c ∈ t.read, c.id = p.proposalID := by
  cases h with
  | entered r t t' hr hstep hlen hmove hread hone =>
    exact ⟨t, List.mem_of_getElem? hr, (Option.some.inj hq).symm, hstep, hlen, hone⟩
  | _ => simp at hq

/-- The accepts that the learner has counted or has still to count, in the order they came in. -/
theorem Does.pool :
    (e.peer.pool = p.pool ∧ e.peer.step = p.step) ∨ e.peer.pool = [] ∨
    (∃ (c : Accept) (o : Fin N), e.peer.pool = p.pool ++ [c] ∧ e.peer.step = p.step ∧ c.step = p.step ∧
      c.rumor ∉ p.processed ∧ c.rumor ∈ e.peer.processed ∧
      sent[c.rumor]? = some ⟨o, .accept c.step c.id c.value⟩) := by
  unfold Peer.pool
  cases h with
  | idle p' msg hframe hmsg =>
    rw [hframe.acceptCh, hframe.idAccepts]
    exact Or.inl ⟨rfl, hframe.step⟩
  | acceptIn o c hk hstep hsent =>
    refine Or.inr (Or.inr ⟨c, o, ?_, rfl, hstep, hk, List.mem_cons_self, hsent⟩)
    rw [List.append_assoc]
  | learnt c rest hch => simp [hch]
  | declared c rest signal hch hcount => simp [hch]
  | advanced p' hadv => simp [hadv.acceptCh, hadv.idAccepts]
  | _ => exact Or.inl ⟨rfl, rfl⟩

theorem Does.decides (d : Decision N) (hd : e.decision = some d) :
    ∃ c rest, p.acceptCh = c :: rest ∧ d = ⟨i, p.step, c.value⟩ ∧
      threshold N ≤ ((p.idAccepts ++ [c]).filter (·.value.uniqID = c.value.uniqID)).length := by
  cases h with
  | declared c rest signal hch hcount => exact ⟨c, rest, hch, (Option.some.inj hd).symm, hcount⟩
  | _ => simp at hd

end Effects

/-! ## Who writes to the logs -/

/-- An effect that goes into neither log. -/
def Effect.Silent (e : Effect N) : Prop := e.proposal = none ∧ e.decision = none

theorem processRumor_silent (i : Fin N) (k : Nat) (msg : Msg N) (p : Peer) (e : Effect N)
    (h : processRumor i k msg p = some e) : e.Silent := by
  unfold processRumor at h
  cases msg with
  | prepare step id source =>
    simp only [paxosPrepareCallback, Option.some.injEq] at h
    split_ifs at h <;> rw [← h] <;> exact ⟨rfl, rfl⟩
  | promise recipient step id acceptedID acceptedValue =>
    simp only [paxosPromiseCallback] at h
    split_ifs at h <;> rw [← Option.some.inj h] <;> exact ⟨rfl, rfl⟩
  | propose step id value =>
    simp only [paxosProposeCallback, Option.some.injEq] at h
    split_ifs at h <;> rw [← h] <;> exact ⟨rfl, rfl⟩
  | accept step id value =>
    simp only [paxosAcceptCallback, Option.some.injEq] at h
    split_ifs at h <;> rw [← h] <;> exact ⟨rfl, rfl⟩
  | tlc step value =>
    simp only [tlcCallback] at h
    split_ifs at h <;> rw [← Option.some.inj h] <;> exact ⟨rfl, rfl⟩

section Logs

variable {cfg : Config N} {w : World N} {i : Fin N} {a : Action} {e : Effect N}

theorem act_silent (h : act cfg w i a = some e) (hlearn : a ≠ .learn) (henter : ∀ r, a ≠ .enterTwo r) :
    e.Silent := by
  cases a with
  | learn => exact absurd rfl hlearn
  | enterTwo r => exact absurd rfl (henter r)
  | propose value =>
    simp only [act, propose, Option.some.injEq] at h
    split_ifs at h <;> rw [← h] <;> exact ⟨rfl, rfl⟩
  | deliver k =>
    simp only [act, deliver] at h
    split_ifs at h
    obtain ⟨rumor, -, h⟩ := Option.bind_eq_some_iff.mp h
    exact processRumor_silent i k _ _ e h
  | prepare r =>
    obtain ⟨t, -, h⟩ := Option.bind_eq_some_iff.mp h
    unfold prepare at h
    split_ifs at h <;> rw [← Option.some.inj h] <;> exact ⟨rfl, rfl⟩
  | readPromise r =>
    obtain ⟨t, -, h⟩ := Option.bind_eq_some_iff.mp h
    unfold readPromise at h
    split at h
    · split_ifs at h
      · obtain ⟨v, -, rfl⟩ := Option.map_eq_some_iff.mp h
        exact ⟨rfl, rfl⟩
      · rw [← Option.some.inj h]
        exact ⟨rfl, rfl⟩
    · cases h
  | timeoutOne r =>
    obtain ⟨t, -, h⟩ := Option.bind_eq_some_iff.mp h
    unfold timeoutOne at h
    split_ifs at h <;> rw [← Option.some.inj h] <;> exact ⟨rfl, rfl⟩
  | signalled r =>
    obtain ⟨t, -, h⟩ := Option.bind_eq_some_iff.mp h
    unfold signalled at h
    split_ifs at h
    rw [← Option.some.inj h]
    exact ⟨rfl, rfl⟩
  | timeoutTwo r =>
    obtain ⟨t, -, h⟩ := Option.bind_eq_some_iff.mp h
    unfold timeoutTwo at h
    split_ifs at h <;> rw [← Option.some.inj h] <;> exact ⟨rfl, rfl⟩
  | unwind r =>
    obtain ⟨t, -, h⟩ := Option.bind_eq_some_iff.mp h
    unfold unwind at h
    split at h
    · rw [← Option.some.inj h]
      exact ⟨rfl, rfl⟩
    · cases h
  | tlcRead =>
    simp only [act, tlcRead] at h
    split at h
    · split_ifs at h <;> rw [← Option.some.inj h] <;> exact ⟨rfl, rfl⟩
    · cases h
  | tlcAdvance =>
    obtain ⟨tlc, -, rfl⟩ := Option.map_eq_some_iff.mp h
    split_ifs <;> exact ⟨rfl, rfl⟩

/-- A proposal is made by a call of `propose` that enters phase two. -/
theorem act_proposal {q : Proposal N} (h : act cfg w i a = some e) (hq : e.proposal = some q) :
    ∃ r t, a = .enterTwo r ∧ (w.peers i).routines[r]? = some t ∧ t.step = (w.peers i).step ∧
      q = ⟨i, w.sent.length, t.step, (w.peers i).proposalID, t.proposedValue, t.read⟩ := by
  by_cases henter : ∃ r, a = .enterTwo r
  · obtain ⟨r, rfl⟩ := henter
    obtain ⟨t, hr, h⟩ := Option.bind_eq_some_iff.mp h
    unfold enterTwo at h
    split_ifs at h with h1 h2
    · rw [← Option.some.inj h] at hq
      cases hq
    · rw [← Option.some.inj h] at hq
      exact ⟨r, t, rfl, hr, not_not.mp h2, (Option.some.inj hq).symm⟩
  · by_cases hlearn : a = .learn
    · subst hlearn
      simp only [act, learn] at h
      split at h
      · cases h
      · split_ifs at h <;> rw [← Option.some.inj h] at hq <;> cases hq
    · have hsilent := act_silent h hlearn fun r hr => henter ⟨r, hr⟩
      rw [hsilent.1] at hq
      cases hq

/-- Only the learner decides, so `OneBallot` is about the accepts that it counts. -/
theorem OneBallot.counted {d : Decision N} (hone : OneBallot w ⟨i, a⟩) (h : act cfg w i a = some e)
    (hd : e.decision = some d) :
    ∀ c rest, (w.peers i).acceptCh = c :: rest →
      threshold N ≤ (((w.peers i).idAccepts ++ [c]).filter (·.value.uniqID = c.value.uniqID)).length →
      ∀ d ∈ (w.peers i).idAccepts, d.value.uniqID = c.value.uniqID → d.id = c.id := by
  by_cases hlearn : a = .learn
  · rw [hlearn] at hone
    exact hone
  · exfalso
    by_cases henter : ∃ r, a = .enterTwo r
    · obtain ⟨r, rfl⟩ := henter
      obtain ⟨t, -, h⟩ := Option.bind_eq_some_iff.mp h
      unfold enterTwo at h
      split_ifs at h <;> rw [← Option.some.inj h] at hd <;> cases hd
    · have hsilent := act_silent h hlearn fun r hr => henter ⟨r, hr⟩
      rw [hsilent.2] at hd
      cases hd

end Logs

end MarketPeer.Paxos
