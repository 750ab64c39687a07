import MarketPeer.Paxos.Mutex

/-!
# When the mutex is held forever

`LockMove` lists what a step can do to the mutex. A step gets stuck exactly if it is
not `Served`, and nothing gets out of it again.
-/

namespace MarketPeer.Paxos

variable {N : Nat}

/-! ## Calls of propose -/

/-- The call is in phase one, or on its way there or out. -/
def Routine.Live (t : Routine) : Prop := t.pc = .loop ∨ t.pc = .exiting ∨ ∃ fired, t.pc = .waitOne fired

theorem Routine.Live.cases (N : Nat) {t : Routine} (h : t.Live) : t.Reads N ∨ t.Locks N := by
  rcases h with h | h | ⟨fired, h⟩
  · exact .inr (.inl h)
  · exact .inr (.inr (.inl h))
  · by_cases hread : t.read.length + fired.toNat < threshold N
    · exact .inl ⟨fired, h, hread⟩
    · exact .inr (.inr (.inr ⟨fired, h, Nat.le_of_not_lt hread⟩))

/-- Somebody is there to receive promises whenever they are sent. -/
def Proposing (p : Peer) : Prop :=
  p.phase = .phaseOne → ∃ (r : Nat) (t : Routine), p.routines[r]? = some t ∧ t.step = p.step ∧ t.Live

/-- What a step of call `r` leaves of it. -/
structure CallStep (p : Peer) (r : Nat) (t : Routine) (p' : Peer) : Prop where
  step : p'.step = p.step
  phase : p'.phase = .phaseOne → p.phase = .phaseOne ∨ t.step = p.step
  routine : ∃ t', p'.routines = p.routines.set r t' ∧ t'.step = t.step ∧
    (p'.phase = .phaseOne → t'.Live ∨ t.step ≠ p.step)

section Calls

variable {p p' : Peer} {r : Nat} {t : Routine} {e : Effect N}

theorem Proposing.call (h : Proposing p) (hr : p.routines[r]? = some t) (hstep : CallStep p r t p') :
    Proposing p' := by
  intro hphase
  obtain ⟨t', hroutines, ht', hlive⟩ := hstep.routine
  obtain ⟨hlen, -⟩ := List.getElem?_eq_some_iff.mp hr
  by_cases hcurrent : t.step = p.step
  · refine ⟨r, t', ?_, ?_, (hlive hphase).resolve_right (not_not.mpr hcurrent)⟩
    · rw [hroutines, List.getElem?_set_self hlen]
    · rw [ht', hstep.step, hcurrent]
  · obtain ⟨q, u, hq, hu, hulive⟩ := h ((hstep.phase hphase).resolve_right hcurrent)
    have hne : r ≠ q := by
      rintro rfl
      rw [hr, Option.some.injEq] at hq
      subst hq
      exact hcurrent hu
    refine ⟨q, u, ?_, hu.trans hstep.step.symm, hulive⟩
    rw [hroutines, List.getElem?_set_ne hne, hq]

theorem exitRoutine_step : CallStep p r t (exitRoutine (N := N) p r t).peer :=
  ⟨rfl, .inl, _, rfl, rfl, fun _ => .inl (.inr (.inl rfl))⟩

theorem prepare_step {i : Fin N} (h : prepare i p r t = some e) : CallStep p r t e.peer := by
  unfold prepare at h
  split_ifs at h with h1 h2
  · cases h
    exact exitRoutine_step
  · cases h
    exact ⟨rfl, fun _ => .inr (not_not.mp h2), _, rfl, rfl, fun _ => .inl (.inr (.inr ⟨_, rfl⟩))⟩

theorem readPromise_step (h : readPromise p r t = some e) :
    CallStep p r t e.peer ∧ e.peer.phase = p.phase ∧ t.step = p.step ∧ t.Reads N := by
  unfold readPromise at h
  split at h
  · rename_i fired c rest hpc hch
    split_ifs at h with h1 h2
    · obtain ⟨v, -, rfl⟩ := Option.map_eq_some_iff.mp h
      exact ⟨⟨rfl, .inl, _, rfl, rfl, fun _ => .inl (.inr (.inr ⟨fired, hpc⟩))⟩, rfl, h1.1, fired, hpc, h1.2⟩
    · cases h
      exact ⟨⟨rfl, .inl, _, rfl, rfl, fun _ => .inl (.inr (.inr ⟨fired, hpc⟩))⟩, rfl, h1.1, fired, hpc, h1.2⟩
  · cases h

theorem timeoutOne_step (h : timeoutOne p r t = some e) : CallStep p r t e.peer := by
  unfold timeoutOne at h
  split_ifs at h with h1 h2
  · cases h
    exact exitRoutine_step
  · cases h
    exact ⟨rfl, .inl, _, rfl, rfl, fun _ => .inl (.inr (.inr ⟨_, rfl⟩))⟩

theorem enterTwo_step {i : Fin N} {now : Nat} (h : enterTwo i now p r t = some e) : CallStep p r t e.peer := by
  unfold enterTwo at h
  split_ifs at h with h1 h2
  · cases h
    exact exitRoutine_step
  · cases h
    refine ⟨rfl, ?_, _, rfl, rfl, ?_⟩
    · intro hone
      cases hone
    · intro hone
      cases hone

theorem signalled_step (h : signalled p r t = some e) :
    e.peer.step = p.step ∧ e.peer.phase = p.phase ∧ t.pc = .waitTwo ∧
      e.peer.routines = p.routines.set r { t with pc := .exiting } := by
  unfold signalled at h
  split_ifs at h with h1
  cases h
  exact ⟨rfl, rfl, h1.1, rfl⟩

theorem timeoutTwo_step (h : timeoutTwo p r t = some e) : CallStep p r t e.peer := by
  unfold timeoutTwo at h
  split_ifs at h with h1 h2
  · cases h
    exact exitRoutine_step
  · cases h
    exact ⟨rfl, .inl, _, rfl, rfl, fun _ => .inl (.inl rfl)⟩

theorem unwind_step (h : unwind p r t = some e) : CallStep p r t e.peer := by
  have hphase : (if t.step = p.step then Phase.notPropose else p.phase) = .phaseOne →
      p.phase = .phaseOne ∧ t.step ≠ p.step := by
    intro hone
    by_cases hcurrent : t.step = p.step
    · rw [if_pos hcurrent] at hone
      cases hone
    · rw [if_neg hcurrent] at hone
      exact ⟨hone, hcurrent⟩
  unfold unwind at h
  by_cases h1 : t.pc = .exiting
  · rw [if_pos h1] at h
    rw [← Option.some.inj h]
    refine ⟨rfl, fun hone => .inl (hphase hone).1, _, rfl, ?_, fun hone => .inr (hphase hone).2⟩
    split
    · rfl
    · rfl
  · rw [if_neg h1] at h
    cases h

end Calls

/-! ## The invariant -/

/-- There is a call that could receive whenever promises are sent, and a callback that is blocked with a
promise has seen that the peer proposes. -/
structure LockInv (s : Locked) : Prop where
  proposing : Proposing s.peer
  blocked : ∀ c, s.sender = some (.promise c) → s.peer.phase = .phaseOne

section Invariant

variable {i : Fin N} {paxosID : Nat} {s s' : Locked} {f : Peer → Option (Effect N)}

theorem Proposing.congr {p p' : Peer} (h : Proposing p) (hstep : p'.step = p.step) (hphase : p'.phase = p.phase)
    (hroutines : p'.routines = p.routines) : Proposing p' := by
  unfold Proposing
  rw [hstep, hphase, hroutines]
  exact h

theorem lock_some (h : s.lock f = some s') :
    s.sender = none ∧ ∃ e, f s.peer = some e ∧ s' = { s with peer := e.peer } := by
  unfold Locked.lock at h
  split_ifs at h with hsender
  obtain ⟨e, he, rfl⟩ := Option.map_eq_some_iff.mp h
  exact ⟨Option.not_isSome_iff_eq_none.mp hsender, e, he, rfl⟩

theorem tlcCollect_proposing {p : Peer} (hp : Proposing p) (tlc : TLC) : Proposing (tlcCollect N p tlc).1 := by
  unfold tlcCollect
  split
  · exact hp
  · simp only []
    split
    · exact hp
    · exact hp

/-- After an advance the peer does not propose. -/
theorem tlcAdvance_proposing {p : Peer} {tlc : TLC} {e : Effect N} (hp : Proposing p)
    (h : tlcAdvance paxosID { p with advancing := some tlc } = some e) :
    Proposing { e.peer with advancing := none } := by
  unfold tlcAdvance at h
  rw [Option.map_some, Option.some.injEq] at h
  by_cases hstep : p.step ≠ tlc.step
  · rw [if_pos hstep] at h
    rw [← h]
    exact hp
  · rw [if_neg hstep] at h
    rw [← h]
    intro hone
    cases hone

theorem tlcSection_proposing {p p' : Peer} {d d' : Daemon} (hp : Proposing p)
    (h : tlcSection N paxosID p d = some (p', d')) : Proposing p' := by
  cases d with
  | receiving => cases h
  | checking tlc =>
    have hp' := tlcCollect_proposing (N := N) hp tlc
    rw [Option.some.inj h] at hp'
    exact hp'
  | comparing tlc | reached tlc catchingup =>
    cases h
    exact hp
  | storing tlc catchingup =>
    simp only [tlcSection] at h
    split at h
    · cases h
      exact hp
    · cases h
      exact hp
  | advancing tlc =>
    rw [tlcSection, Option.map_eq_some_iff] at h
    obtain ⟨e, he, heq⟩ := h
    cases heq
    exact tlcAdvance_proposing hp he

theorem propose_proposing {p : Peer} (hp : Proposing p) (value : PaxosValue) :
    Proposing (propose (N := N) p value).peer := by
  unfold propose
  split_ifs
  · intro _
    exact ⟨p.routines.length, _, List.getElem?_concat_length, rfl, .inl rfl⟩
  · exact hp

theorem learn_frame {p : Peer} {e : Effect N} (h : learn i p = some e) :
    e.peer.step = p.step ∧ e.peer.phase = p.phase ∧ e.peer.routines = p.routines := by
  unfold learn at h
  split at h
  · cases h
  · simp only [] at h
    split_ifs at h
    all_goals
      cases h
      exact ⟨rfl, rfl, rfl⟩

theorem LockInv.init (paxosID : Nat) : LockInv (.init paxosID) where
  proposing := by
    intro hone
    cases hone
  blocked := by
    intro c hc
    cases hc

/-- What decides who can receive a promise. -/
structure SameCalls (p p' : Peer) : Prop where
  step : p'.step = p.step
  phase : p'.phase = p.phase
  routines : p'.routines = p.routines

theorem SameCalls.proposing {p p' : Peer} (hsame : SameCalls p p') (h : Proposing p) : Proposing p' :=
  h.congr hsame.step hsame.phase hsame.routines

theorem admitPromise_spec (s : Locked) :
    SameCalls s.peer s.admitPromise.peer ∧ s.admitPromise.daemon = s.daemon ∧ s.admitPromise.timed = s.timed ∧
      ((∃ c, s.sender = some (.promise c)) ∧ s.admitPromise.sender = none ∨
        (∀ c, s.sender ≠ some (.promise c)) ∧ s.admitPromise.sender = s.sender) := by
  unfold Locked.admitPromise
  split
  · rename_i c hc
    exact ⟨⟨rfl, rfl, rfl⟩, rfl, rfl, .inl ⟨⟨c, hc⟩, rfl⟩⟩
  · rename_i hother
    exact ⟨⟨rfl, rfl, rfl⟩, rfl, rfl, .inr ⟨hother, rfl⟩⟩

theorem admitTLC_spec (s : Locked) :
    SameCalls s.peer s.admitTLC.peer ∧ s.admitTLC.timed = s.timed ∧
      ((∃ t, s.sender = some (.tlc t)) ∧ s.admitTLC.sender = none ∨
        (∀ t, s.sender ≠ some (.tlc t)) ∧ s.admitTLC.sender = s.sender) := by
  unfold Locked.admitTLC
  split
  · rename_i t ht
    exact ⟨⟨rfl, rfl, rfl⟩, rfl, .inl ⟨⟨t, ht⟩, rfl⟩⟩
  · rename_i hother
    exact ⟨⟨rfl, rfl, rfl⟩, rfl, .inr ⟨hother, rfl⟩⟩

/-- The callback comes to an end, or it has found the channel full. -/
theorem paxosPromiseCallback_cases {c : Promise} (h : s.paxosPromiseCallback N c = some s') :
    s.sender = none ∧
      ((SameCalls s.peer s'.peer ∧ s'.sender = none ∧
          (c.step = s.peer.step → s.peer.phase = .phaseOne → s.peer.promiseCh.length < N)) ∨
        (s' = { s with sender := some (.promise c) } ∧ c.step = s.peer.step ∧ s.peer.phase = .phaseOne ∧
          ¬ s.peer.promiseCh.length < N)) := by
  unfold Locked.paxosPromiseCallback Paxos.paxosPromiseCallback at h
  split_ifs at h with hsender hstep hphase hroom
  all_goals
    cases h
    refine ⟨Option.not_isSome_iff_eq_none.mp hsender, ?_⟩
  · exact .inl ⟨⟨rfl, rfl, rfl⟩, Option.not_isSome_iff_eq_none.mp hsender, fun hc => absurd hc hstep⟩
  · exact .inl ⟨⟨rfl, rfl, rfl⟩, Option.not_isSome_iff_eq_none.mp hsender, fun _ hone => absurd hone hphase⟩
  · exact .inl ⟨⟨rfl, rfl, rfl⟩, Option.not_isSome_iff_eq_none.mp hsender, fun _ _ => hroom⟩
  · exact .inr ⟨rfl, not_not.mp hstep, not_not.mp hphase, hroom⟩

theorem tlcCallback_cases {t : TLC} (h : s.tlcCallback N t = some s') :
    s.sender = none ∧
      ((SameCalls s.peer s'.peer ∧ s'.sender = none ∧ (s.peer.step ≤ t.step → s.peer.tlcCh.length < N)) ∨
        (SameCalls s.peer s'.peer ∧ s'.sender = some (.tlc t) ∧ s'.daemon = s.daemon ∧ s.peer.step ≤ t.step ∧
          ¬ s.peer.tlcCh.length < N)) := by
  unfold Locked.tlcCallback Paxos.tlcCallback at h
  split_ifs at h with hsender hstep hroom
  all_goals
    cases h
    refine ⟨Option.not_isSome_iff_eq_none.mp hsender, ?_⟩
  · exact .inl ⟨⟨rfl, rfl, rfl⟩, Option.not_isSome_iff_eq_none.mp hsender, fun hle => absurd hle (by omega)⟩
  · exact .inl ⟨⟨rfl, rfl, rfl⟩, Option.not_isSome_iff_eq_none.mp hsender, fun _ => hroom⟩
  · exact .inr ⟨⟨rfl, rfl, rfl⟩, rfl, rfl, by omega, hroom⟩

end Invariant

/-! ## What a step can do -/

/-- How a step ends, as far as the mutex is concerned. -/
inductive LockMove (N : Nat) (s : Locked) : LockEvent N → Locked → Prop where
  | ended (e : LockEvent N) (s' : Locked) (hfree : s.sender = none) (hkeep : Proposing s.peer → Proposing s'.peer)
      (hsender : s'.sender = none) (hserved : Served N s e) : LockMove N s e s'
  | fullPromise (c : Promise) (hfree : s.sender = none) (hstep : c.step = s.peer.step)
      (hphase : s.peer.phase = .phaseOne) (hfull : ¬ s.peer.promiseCh.length < N) :
      LockMove N s (.promise c) { s with sender := some (.promise c) }
  | fullTLC (t : TLC) (s' : Locked) (hfree : s.sender = none) (hsame : SameCalls s.peer s'.peer)
      (hsender : s'.sender = some (.tlc t)) (hdaemon : s'.daemon = s.daemon) (hstep : s.peer.step ≤ t.step)
      (hfull : ¬ s.peer.tlcCh.length < N) : LockMove N s (.tlc t) s'
  | read (r : Nat) (s' : Locked) (hreceives : Receives N s r) (hkeep : Proposing s.peer → Proposing s'.peer)
      (hphase : s'.peer.phase = s.peer.phase) (hdaemon : s'.daemon = s.daemon)
      (hsender : (∃ c, s.sender = some (.promise c)) ∧ s'.sender = none ∨
        (∀ c, s.sender ≠ some (.promise c)) ∧ s'.sender = s.sender) :
      LockMove N s (.readPromise r) s'
  | fired (r : Nat) (t : Routine) (hr : s.peer.routines[r]? = some t) :
      LockMove N s (.fire r) { s with timed := r :: s.timed }
  | signalled (r : Nat) (t : Routine) (s' : Locked) (hr : s.peer.routines[r]? = some t) (hpc : t.pc = .waitTwo)
      (hroutines : s'.peer.routines = s.peer.routines.set r { t with pc := .exiting })
      (hstep : s'.peer.step = s.peer.step) (hphase : s'.peer.phase = s.peer.phase)
      (hrest : s'.sender = s.sender ∧ s'.timed = s.timed ∧ s'.daemon = s.daemon) :
      LockMove N s (.signalled r) s'
  | learnt (s' : Locked) (hsame : SameCalls s.peer s'.peer)
      (hrest : s'.sender = s.sender ∧ s'.timed = s.timed ∧ s'.daemon = s.daemon) : LockMove N s .learn s'
  | took (s' : Locked) (hsame : SameCalls s.peer s'.peer) (htimed : s'.timed = s.timed)
      (hdaemon : ¬ s.daemon.WaitsForLock)
      (hsender : (∃ t, s.sender = some (.tlc t)) ∧ s'.sender = none ∨
        (∀ t, s.sender ≠ some (.tlc t)) ∧ s'.sender = s.sender) :
      LockMove N s .tlcReceive s'

section Moves

variable {i : Fin N} {paxosID : Nat} {s s' : Locked} {f : Peer → Option (Effect N)} {e : LockEvent N}

theorem LockMove.lock (h : s.lock f = some s') (hserved : Served N s e)
    (hkeep : ∀ e, f s.peer = some e → Proposing s.peer → Proposing e.peer) : LockMove N s e s' := by
  obtain ⟨hfree, e', he', rfl⟩ := lock_some h
  exact .ended e _ hfree (hkeep e' he') hfree hserved

theorem LockMove.lock_call {r : Nat} {g : Peer → Nat → Routine → Option (Effect N)} (hserved : Served N s e)
    (hg : ∀ t e, g s.peer r t = some e → CallStep s.peer r t e.peer)
    (h : (s.lock fun _ => s.call r g) = some s') : LockMove N s e s' := by
  refine .lock h hserved ?_
  intro e' he' hp
  obtain ⟨t, hr, ht⟩ := Option.bind_eq_some_iff.mp he'
  exact hp.call hr (hg t e' ht)

theorem lockStep_move (h : lockStep i paxosID s e = some s') : LockMove N s e s' := by
  cases e with
  | propose value =>
    rw [lockStep] at h
    refine .lock h trivial ?_
    rintro _ ⟨⟩ hp
    exact propose_proposing hp value
  | promise c =>
    obtain ⟨hfree, ⟨hsame, hsender, hroom⟩ | ⟨rfl, hstep, hphase, hfull⟩⟩ := paxosPromiseCallback_cases h
    · exact .ended _ _ hfree hsame.proposing hsender fun hstep hphase => .inl (hroom hstep hphase)
    · exact .fullPromise c hfree hstep hphase hfull
  | tlc t =>
    obtain ⟨hfree, ⟨hsame, hsender, hroom⟩ | ⟨hsame, hsender, hdaemon, hstep, hfull⟩⟩ := tlcCallback_cases h
    · exact .ended _ _ hfree hsame.proposing hsender fun hstep => .inl (hroom hstep)
    · exact .fullTLC t s' hfree hsame hsender hdaemon hstep hfull
  | prepareMsg step id source =>
    rw [lockStep] at h
    refine .lock h trivial ?_
    rintro _ ⟨⟩ hp
    unfold paxosPrepareCallback
    split_ifs <;> exact hp
  | proposeMsg step id value =>
    rw [lockStep] at h
    refine .lock h trivial ?_
    rintro _ ⟨⟩ hp
    unfold paxosProposeCallback
    split_ifs <;> exact hp
  | acceptMsg c =>
    rw [lockStep] at h
    refine .lock h trivial ?_
    rintro _ ⟨⟩ hp
    unfold paxosAcceptCallback
    split_ifs <;> exact hp
  | prepare r => exact .lock_call trivial (fun _ _ => prepare_step) h
  | readPromise r =>
    rw [lockStep, Locked.readPromise] at h
    split_ifs at h with htimed
    obtain ⟨e', he', rfl⟩ := Option.map_eq_some_iff.mp h
    obtain ⟨t, hr, ht⟩ := Option.bind_eq_some_iff.mp he'
    obtain ⟨hcall, hphase, hstep, hreads⟩ := readPromise_step ht
    obtain ⟨hsame, hdaemon, -, hsender⟩ := admitPromise_spec { s with peer := e'.peer }
    exact .read r _ ⟨t, hr, hstep, hreads, htimed⟩ (fun hp => hsame.proposing (hp.call hr hcall))
      (hsame.phase.trans hphase) hdaemon hsender
  | fire r =>
    obtain ⟨t, hr, ht⟩ := Option.bind_eq_some_iff.mp h
    split_ifs at ht
    cases ht
    exact .fired r t hr
  | timeoutOne r =>
    rw [lockStep, Locked.timeoutOne] at h
    split_ifs at h with htimed
    obtain ⟨s₁, hlock, rfl⟩ := Option.map_eq_some_iff.mp h
    obtain ⟨hfree, e', he', rfl⟩ := lock_some hlock
    obtain ⟨t, hr, ht⟩ := Option.bind_eq_some_iff.mp he'
    exact .ended _ _ hfree (fun hp => hp.call hr (timeoutOne_step ht)) hfree trivial
  | enterTwo r => exact .lock_call trivial (fun _ _ => enterTwo_step) h
  | signalled r =>
    obtain ⟨e', he', rfl⟩ := Option.map_eq_some_iff.mp h
    obtain ⟨t, hr, ht⟩ := Option.bind_eq_some_iff.mp he'
    obtain ⟨hstep, hphase, hpc, hroutines⟩ := signalled_step ht
    exact .signalled r t _ hr hpc hroutines hstep hphase ⟨rfl, rfl, rfl⟩
  | timeoutTwo r => exact .lock_call trivial (fun _ _ => timeoutTwo_step) h
  | unwind r => exact .lock_call trivial (fun _ _ => unwind_step) h
  | learn =>
    obtain ⟨e', he', rfl⟩ := Option.map_eq_some_iff.mp h
    obtain ⟨hstep, hphase, hroutines⟩ := learn_frame he'
    exact .learnt _ ⟨hstep, hphase, hroutines⟩ ⟨rfl, rfl, rfl⟩
  | tlcReceive =>
    rw [lockStep, Locked.tlcReceive] at h
    split at h
    · rename_i tlc rest hdaemon hch
      cases h
      obtain ⟨hsame, htimed, hsender⟩ :=
        admitTLC_spec { s with peer := { s.peer with tlcCh := rest }, daemon := .checking tlc }
      refine .took _ ⟨hsame.step, hsame.phase, hsame.routines⟩ htimed ?_ hsender
      simp [hdaemon, Daemon.WaitsForLock]
    · cases h
  | tlcDaemon =>
    rw [lockStep, Locked.tlcDaemon] at h
    split_ifs at h with hsender
    obtain ⟨⟨peer, daemon⟩, hsection, rfl⟩ := Option.map_eq_some_iff.mp h
    have hfree := Option.not_isSome_iff_eq_none.mp hsender
    exact .ended _ _ hfree (fun hp => tlcSection_proposing hp hsection) hfree trivial

end Moves

/-! ## Getting stuck -/

section Stuck

variable {i : Fin N} {paxosID : Nat} {s s' : Locked} {e : LockEvent N}

theorem LockInv.keep (h : LockInv s) (hmove : LockMove N s e s') : LockInv s' := by
  cases hmove with
  | ended _ _ hfree hkeep hsender _ => exact ⟨hkeep h.proposing, by simp [hsender]⟩
  | fullPromise c hfree hstep hphase hfull => exact ⟨h.proposing, fun _ _ => hphase⟩
  | fullTLC t _ hfree hsame hsender _ _ _ => exact ⟨hsame.proposing h.proposing, by simp [hsender]⟩
  | read r _ hreceives hkeep hphase _ hsender =>
    refine ⟨hkeep h.proposing, ?_⟩
    intro c hc
    rcases hsender with ⟨-, hnone⟩ | ⟨hother, hsame⟩
    · rw [hnone] at hc
      cases hc
    · exact absurd (hsame ▸ hc) (hother c)
  | fired r t hr => exact ⟨h.proposing, h.blocked⟩
  | signalled r t _ hr hpc hroutines hstep hphase hrest =>
    have hcall : CallStep s.peer r t s'.peer :=
      ⟨hstep, fun hone => .inl (hphase ▸ hone), _, hroutines, rfl, fun _ => .inl (.inr (.inl rfl))⟩
    refine ⟨h.proposing.call hr hcall, ?_⟩
    rw [hphase, hrest.1]
    exact h.blocked
  | learnt _ hsame hrest =>
    refine ⟨hsame.proposing h.proposing, ?_⟩
    rw [hsame.phase, hrest.1]
    exact h.blocked
  | took _ hsame _ _ hsender =>
    refine ⟨hsame.proposing h.proposing, ?_⟩
    intro c hc
    rcases hsender with ⟨-, hnone⟩ | ⟨-, hsender⟩
    · rw [hnone] at hc
      cases hc
    · rw [hsame.phase]
      exact h.blocked c (hsender ▸ hc)

/-- In phase one somebody receives or waits for the mutex. -/
theorem LockInv.receives_or_waits (h : LockInv s) (hphase : s.peer.phase = .phaseOne) :
    (∃ r, Receives N s r) ∨ ∃ r, WaitsForLock N s r := by
  obtain ⟨r, t, hr, hstep, hlive⟩ := h.proposing hphase
  by_cases htimed : r ∈ s.timed
  · exact .inr ⟨r, t, hr, hstep, .inr htimed⟩
  · rcases hlive.cases N with hreads | hlocks
    · exact .inl ⟨r, t, hr, hstep, hreads, htimed⟩
    · exact .inr ⟨r, t, hr, hstep, .inl hlocks⟩

theorem stuck_promise {c : Promise} (hsender : s.sender = some (.promise c)) :
    Stuck N s ↔ (∃ r, WaitsForLock N s r) ∧ ∀ r, ¬ Receives N s r := by
  unfold Stuck
  rw [hsender]

theorem stuck_tlc {t : TLC} (hsender : s.sender = some (.tlc t)) : Stuck N s ↔ s.daemon.WaitsForLock := by
  unfold Stuck
  rw [hsender]

theorem not_stuck_of_free (hsender : s.sender = none) : ¬ Stuck N s := by
  unfold Stuck
  rw [hsender]
  exact id

/-- A callback that is blocked with a promise is stuck as long as nobody receives. -/
theorem LockInv.stuck_promise_iff {c : Promise} (h : LockInv s) (hsender : s.sender = some (.promise c)) :
    Stuck N s ↔ ∀ r, ¬ Receives N s r := by
  rw [stuck_promise hsender]
  constructor
  · exact And.right
  · intro hnone
    refine ⟨(h.receives_or_waits (h.blocked c hsender)).resolve_left ?_, hnone⟩
    rintro ⟨r, hr⟩
    exact hnone r hr

theorem SameCalls.receives_iff (hsame : SameCalls s.peer s'.peer) (htimed : s'.timed = s.timed) (r : Nat) :
    Receives N s' r ↔ Receives N s r := by
  unfold Receives
  rw [hsame.routines, hsame.step, htimed]

/-- The end of phase two moves no call to or from its receive. -/
theorem signalled_receives_iff {r : Nat} {t : Routine} (hr : s.peer.routines[r]? = some t) (hpc : t.pc = .waitTwo)
    (hroutines : s'.peer.routines = s.peer.routines.set r { t with pc := .exiting })
    (hstep : s'.peer.step = s.peer.step) (htimed : s'.timed = s.timed) (q : Nat) :
    Receives N s' q ↔ Receives N s q := by
  obtain ⟨hlen, -⟩ := List.getElem?_eq_some_iff.mp hr
  unfold Receives
  rw [hroutines, hstep, htimed]
  by_cases hq : r = q
  · subst hq
    rw [List.getElem?_set_self hlen, hr]
    simp [Routine.Reads, hpc]
  · rw [List.getElem?_set_ne hq]

/-- A step that changes nothing for the blocked callback. -/
theorem LockInv.stuck_congr (h : LockInv s) (h' : LockInv s') (hsender : s'.sender = s.sender)
    (hreceives : ∀ c, s.sender = some (.promise c) → ∀ r, Receives N s' r ↔ Receives N s r)
    (hdaemon : ∀ t, s.sender = some (.tlc t) → s'.daemon = s.daemon) : Stuck N s' ↔ Stuck N s := by
  cases hs : s.sender with
  | none => simp [not_stuck_of_free hs, not_stuck_of_free (hsender.trans hs)]
  | some sender =>
    cases sender with
    | promise c =>
      rw [h.stuck_promise_iff hs, h'.stuck_promise_iff (hsender.trans hs)]
      simp only [hreceives c hs]
    | tlc t => rw [stuck_tlc hs, stuck_tlc (hsender.trans hs), hdaemon t hs]

theorem fired_receives_iff (s : Locked) (r q : Nat) :
    Receives N { s with timed := r :: s.timed } q ↔ q ≠ r ∧ Receives N s q := by
  unfold Receives
  simp only [List.mem_cons, not_or]
  constructor
  · rintro ⟨t, hq, hstep, hreads, hne, htimed⟩
    exact ⟨hne, t, hq, hstep, hreads, htimed⟩
  · rintro ⟨hne, t, hq, hstep, hreads, htimed⟩
    exact ⟨t, hq, hstep, hreads, hne, htimed⟩

/-- A step gets stuck exactly if it is not served. -/
theorem LockInv.stuck_iff (h : LockInv s) (hgood : ¬ Stuck N s) (hmove : LockMove N s e s') :
    Stuck N s' ↔ ¬ Served N s e := by
  have hinv := h.keep hmove
  cases hmove with
  | ended _ _ _ _ hsender hserved => simp [not_stuck_of_free hsender, hserved]
  | fullPromise c hfree hstep hphase hfull =>
    rw [hinv.stuck_promise_iff rfl]
    simp [Served, hstep, hphase, hfull, Receives]
  | fullTLC t _ hfree hsame hsender hdaemon hstep hfull =>
    rw [stuck_tlc hsender, hdaemon]
    simp [Served, hstep, hfull]
  | read r _ hreceives _ _ hdaemon hsender =>
    have hserved : Served N s (.readPromise r) := trivial
    rcases hsender with ⟨-, hnone⟩ | ⟨hother, hsame⟩
    · simp [not_stuck_of_free hnone, hserved]
    · rw [h.stuck_congr hinv hsame (fun c hc => absurd hc (hother c)) fun _ _ => hdaemon]
      simp [hgood, hserved]
  | fired r t hr =>
    by_cases hpromise : ∃ c, s.sender = some (.promise c)
    · obtain ⟨c, hc⟩ := hpromise
      rw [hinv.stuck_promise_iff hc]
      simp only [fired_receives_iff]
      simp [Served, hc]
    · have hserved : Served N s (.fire r) := fun hc => absurd hc hpromise
      rw [h.stuck_congr hinv rfl (fun c hc => absurd ⟨c, hc⟩ hpromise) fun _ _ => rfl]
      simp [hgood, hserved]
  | signalled r t _ hr hpc hroutines hstep hphase hrest =>
    have hserved : Served N s (.signalled r) := trivial
    rw [h.stuck_congr hinv hrest.1
      (fun _ _ => signalled_receives_iff hr hpc hroutines hstep hrest.2.1) fun _ _ => hrest.2.2]
    simp [hgood, hserved]
  | learnt _ hsame hrest =>
    have hserved : Served N s .learn := trivial
    rw [h.stuck_congr hinv hrest.1 (fun _ _ => hsame.receives_iff hrest.2.1) fun _ _ => hrest.2.2]
    simp [hgood, hserved]
  | took _ hsame htimed hdaemon hsender =>
    have hserved : Served N s .tlcReceive := trivial
    rcases hsender with ⟨-, hnone⟩ | ⟨hother, hsender⟩
    · simp [not_stuck_of_free hnone, hserved]
    · rw [h.stuck_congr hinv hsender (fun _ _ => hsame.receives_iff htimed) fun t ht => absurd ht (hother t)]
      simp [hgood, hserved]

/-- Nobody gets out of it. -/
theorem LockInv.stuck_forever (h : LockInv s) (hstuck : Stuck N s) (hmove : LockMove N s e s') : Stuck N s' := by
  have hinv := h.keep hmove
  have hheld : s.sender ≠ none := fun hfree => not_stuck_of_free hfree hstuck
  cases hmove with
  | ended _ _ hfree _ _ _ => exact absurd hfree hheld
  | fullPromise c hfree _ _ _ => exact absurd hfree hheld
  | fullTLC t _ hfree _ _ _ _ _ => exact absurd hfree hheld
  | read r _ hreceives _ _ hdaemon hsender =>
    rcases hsender with ⟨⟨c, hc⟩, -⟩ | ⟨hother, hsame⟩
    · exact absurd hreceives ((h.stuck_promise_iff hc).mp hstuck r)
    · rw [h.stuck_congr hinv hsame (fun c hc => absurd hc (hother c)) fun _ _ => hdaemon]
      exact hstuck
  | fired r t hr =>
    by_cases hpromise : ∃ c, s.sender = some (.promise c)
    · obtain ⟨c, hc⟩ := hpromise
      rw [hinv.stuck_promise_iff hc]
      intro q hq
      exact (h.stuck_promise_iff hc).mp hstuck q ((fired_receives_iff s r q).mp hq).2
    · rw [h.stuck_congr hinv rfl (fun c hc => absurd ⟨c, hc⟩ hpromise) fun _ _ => rfl]
      exact hstuck
  | signalled r t _ hr hpc hroutines hstep hphase hrest =>
    rw [h.stuck_congr hinv hrest.1
      (fun _ _ => signalled_receives_iff hr hpc hroutines hstep hrest.2.1) fun _ _ => hrest.2.2]
    exact hstuck
  | learnt _ hsame hrest =>
    rw [h.stuck_congr hinv hrest.1 (fun _ _ => hsame.receives_iff hrest.2.1) fun _ _ => hrest.2.2]
    exact hstuck
  | took _ hsame htimed hdaemon hsender =>
    rcases hsender with ⟨⟨t, ht⟩, -⟩ | ⟨hother, hsender⟩
    · exact absurd ((stuck_tlc ht).mp hstuck) hdaemon
    · rw [h.stuck_congr hinv hsender (fun _ _ => hsame.receives_iff htimed) fun t ht => absurd ht (hother t)]
      exact hstuck

/-- A run never gets stuck exactly if each of its steps is served. A run that is stuck stays so. -/
theorem mutex_released_iff (i : Fin N) (paxosID : Nat) (es : List (LockEvent N))
    (hrun : run (lockStep i paxosID) (.init paxosID) es = some s) :
    (Meets (lockStep i paxosID) (Served N) (.init paxosID) es ↔
      ∀ pre suf s', es = pre ++ suf → run (lockStep i paxosID) (.init paxosID) pre = some s' → ¬ Stuck N s') ∧
    (Stuck N s → ∀ more s', run (lockStep i paxosID) s more = some s' → Stuck N s') := by
  constructor
  · refine meets_iff_safe LockInv (Stuck N) ?_ ?_ es (LockInv.init paxosID) (not_stuck_of_free rfl) hrun
    · intro s e s' h hstep
      exact h.keep (lockStep_move hstep)
    · intro s e s' h hgood hstep
      exact h.stuck_iff hgood (lockStep_move hstep)
  · intro hstuck more s' hmore
    have hinv : LockInv s :=
      run_preserves LockInv (fun _ _ _ h hstep => h.keep (lockStep_move hstep)) es (LockInv.init paxosID) hrun
    refine (run_preserves (fun s => LockInv s ∧ Stuck N s) ?_ more ⟨hinv, hstuck⟩ hmore).2
    rintro s e s' ⟨h, hs⟩ hstep
    exact ⟨h.keep (lockStep_move hstep), h.stuck_forever hs (lockStep_move hstep)⟩

/-- A promise for a ballot of step 0 by an acceptor that has accepted nothing. -/
def samplePromise (rumor id : Nat) : Promise := ⟨rumor, 0, id, 0, none⟩

def sampleTLC (step : Nat) : TLC := ⟨step, ⟨"a", "file", "1"⟩⟩

/-- A proposer that gets its own promise first. -/
def ownPromise : List (LockEvent 3) :=
  [.propose ⟨"a", "file", "1"⟩, .prepare 0, .promise (samplePromise 0 1)]

theorem ownPromise_released :
    ∃ s, run (lockStep (0 : Fin 3) 1) (.init 1) ownPromise = some s ∧
      Meets (lockStep (0 : Fin 3) 1) (Served 3) (.init 1) ownPromise ∧ ¬ Stuck 3 s := by
  have hmeets : Meets (lockStep (0 : Fin 3) 1) (Served 3) (.init 1) ownPromise := by
    refine ⟨trivial, ?_⟩
    rintro _ ⟨⟩
    refine ⟨trivial, ?_⟩
    rintro _ ⟨⟩
    refine ⟨fun _ _ => .inl (by decide), ?_⟩
    rintro _ ⟨⟩
    trivial
  exact ⟨_, rfl, hmeets, (mutex_released_iff 0 1 ownPromise rfl).1.mp hmeets ownPromise [] _ rfl rfl⟩

/-- Three peers. The first call of phase one has read its own promise when the timer fires, and it is at the
timer again when the promises of both ballots come in. -/
def lateBallots : List (LockEvent 3) :=
  [.propose ⟨"a", "file", "1"⟩, .prepare 0, .promise (samplePromise 0 1), .readPromise 0, .fire 0, .timeoutOne 0,
    .prepare 0, .fire 0, .promise (samplePromise 1 1), .promise (samplePromise 2 1), .promise (samplePromise 3 4),
    .promise (samplePromise 4 4)]

/-- All three messages of step 0 and the first two of step 1 come in before the daemon gets the mutex. -/
def fiveTLCs : List (LockEvent 3) :=
  [.tlc (sampleTLC 0), .tlcReceive, .tlc (sampleTLC 0), .tlc (sampleTLC 0), .tlc (sampleTLC 1), .tlc (sampleTLC 1)]

theorem mutex_not_released :
    (∃ s c, run (lockStep (0 : Fin 3) 1) (.init 1) lateBallots = some s ∧ s.sender = some (.promise c) ∧
      Stuck 3 s) ∧
    ∃ s t, run (lockStep (0 : Fin 3) 1) (.init 1) fiveTLCs = some s ∧ s.sender = some (.tlc t) ∧ Stuck 3 s := by
  constructor
  · exact ⟨_, samplePromise 4 4, rfl, rfl, by decide⟩
  · exact ⟨_, sampleTLC 1, rfl, rfl, by decide⟩

end Stuck

end MarketPeer.Paxos
