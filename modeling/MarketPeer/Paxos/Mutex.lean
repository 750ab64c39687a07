import MarketPeer.Paxos.Model

/-!
# Who holds the mutex

One peer, with `mp.mu`. `PaxosPromiseCallback` and `TLCCallback` send to channels of
capacity `N` inside their critical sections; a callback that finds its channel full
keeps the mutex until a routine receives from it. All other critical sections end by
themselves and are one step each; here `tlcDaemon` and the timer of phase one are cut
where they wait for the mutex. Any message can come in at any time.
-/

namespace MarketPeer.Paxos

variable {N : Nat}

/-! ## The model -/

/-- A callback that is blocked in its send. -/
inductive Sender where
  | promise (c : Promise)
  | tlc (t : TLC)

/-- `tlcDaemon` is at its channel, or it waits for the mutex: after the receive, with enough messages for
a step, at the three critical sections of `onTLCReachedAtCurrentStep`. -/
inductive Daemon where
  | receiving
  | checking (tlc : TLC)
  | comparing (tlc : TLC)
  | reached (tlc : TLC) (catchingup : Bool)
  | storing (tlc : TLC) (catchingup : Bool)
  | advancing (tlc : TLC)

/-- A peer with the routines that want its mutex: `sender` is the callback that holds it across steps, and
`timed` are the calls of `propose` whose timer has fired in phase one. -/
structure Locked where
  peer : Peer
  sender : Option Sender
  timed : List Nat
  daemon : Daemon

def Locked.init (paxosID : Nat) : Locked := ⟨.init paxosID, none, [], .receiving⟩

/-- A critical section that ends. -/
def Locked.lock (s : Locked) (f : Peer → Option (Effect N)) : Option Locked :=
  if s.sender.isSome then none else (f s.peer).map fun e => { s with peer := e.peer }

/-- The call `r` of `propose`. -/
def Locked.call (s : Locked) (r : Nat) (f : Peer → Nat → Routine → Option (Effect N)) :
    Option (Effect N) :=
  (s.peer.routines[r]?).bind (f s.peer r)

/-- `PaxosPromiseCallback`, up to the send if the channel is full. -/
def Locked.paxosPromiseCallback (N : Nat) (s : Locked) (c : Promise) : Option Locked :=
  if s.sender.isSome then none
  else
    match Paxos.paxosPromiseCallback (N := N) s.peer c with
    | some e => some { s with peer := e.peer }
    | none => some { s with sender := some (.promise c) }

/-- `TLCCallback`, up to the send if the channel is full: `tlcSent` is set before. -/
def Locked.tlcCallback (N : Nat) (s : Locked) (t : TLC) : Option Locked :=
  if s.sender.isSome then none
  else
    match Paxos.tlcCallback (N := N) s.peer t with
    | some e => some { s with peer := e.peer }
    | none => some { s with peer := { s.peer with tlcSent := true }, sender := some (.tlc t) }

/-- The send of a blocked promise, as soon as there is room. -/
def Locked.admitPromise (s : Locked) : Locked :=
  match s.sender with
  | some (.promise c) =>
    { s with peer := { s.peer with promiseCh := s.peer.promiseCh ++ [c] }, sender := none }
  | _ => s

def Locked.admitTLC (s : Locked) : Locked :=
  match s.sender with
  | some (.tlc t) => { s with peer := { s.peer with tlcCh := s.peer.tlcCh ++ [t] }, sender := none }
  | _ => s

/-- A receive from `promiseCh` needs no mutex. -/
def Locked.readPromise (N : Nat) (s : Locked) (r : Nat) : Option Locked :=
  if r ∈ s.timed then none
  else (s.call (N := N) r Paxos.readPromise).map fun e => { s with peer := e.peer }.admitPromise

/-- The timer of phase one fires: the call goes for the mutex. -/
def Locked.fire (N : Nat) (s : Locked) (r : Nat) : Option Locked :=
  (s.peer.routines[r]?).bind fun t =>
    if t.pc = .waitOne false ∧ t.read.length < threshold N ∧ r ∉ s.timed then
      some { s with timed := r :: s.timed }
    else none

def Locked.timeoutOne (N : Nat) (s : Locked) (r : Nat) : Option Locked :=
  if r ∈ s.timed then
    (s.lock (N := N) fun _ => s.call r Paxos.timeoutOne).map fun s => { s with timed := s.timed.erase r }
  else none

/-! ## tlcDaemon -/

def Locked.tlcReceive (s : Locked) : Option Locked :=
  match s.daemon, s.peer.tlcCh with
  | .receiving, tlc :: rest =>
    some { s with peer := { s.peer with tlcCh := rest }, daemon := .checking tlc }.admitTLC
  | _, _ => none

/-- Outdated messages are dropped, the others are collected by their step. -/
def tlcCollect (N : Nat) (p : Peer) (tlc : TLC) : Peer × Daemon :=
  if tlc.step < p.step then (p, .receiving)
  else
    let p := { p with stepTLCMsgs := p.stepTLCMsgs ++ [tlc] }
    if (p.stepTLCMsgs.filter (·.step = tlc.step)).length < threshold N then (p, .receiving)
    else (p, .comparing tlc)

/-- Each critical section of the daemon, with the place that it leads to. The store of the blocks is left
out. -/
def tlcSection (N paxosID : Nat) (p : Peer) : Daemon → Option (Peer × Daemon)
  | .receiving => none
  | .checking tlc => some (tlcCollect N p tlc)
  | .comparing tlc => some (p, if p.step ≠ tlc.step then .receiving else .reached tlc false)
  | .reached tlc catchingup => some (p, if p.step ≠ tlc.step then .receiving else .storing tlc catchingup)
  | .storing tlc catchingup =>
    if p.step ≠ tlc.step then some (p, .receiving)
    else some ({ p with tlcSent := p.tlcSent || !catchingup }, .advancing tlc)
  | .advancing tlc =>
    (tlcAdvance (N := N) paxosID { p with advancing := some tlc }).map fun e =>
      ({ e.peer with advancing := none },
        match e.peer.advancing with
        | some msg => .reached msg true
        | none => .receiving)

def Locked.tlcDaemon (N paxosID : Nat) (s : Locked) : Option Locked :=
  if s.sender.isSome then none
  else (tlcSection N paxosID s.peer s.daemon).map fun (peer, daemon) => { s with peer, daemon }

/-! ## Steps -/

inductive LockEvent (N : Nat) where
  | propose (value : PaxosValue)
  | promise (c : Promise)
  | tlc (t : TLC)
  | prepareMsg (step id : Nat) (source : Fin N)
  | proposeMsg (step id : Nat) (value : PaxosValue)
  | acceptMsg (c : Accept)
  | prepare (r : Nat)
  | readPromise (r : Nat)
  | fire (r : Nat)
  | timeoutOne (r : Nat)
  | enterTwo (r : Nat)
  | signalled (r : Nat)
  | timeoutTwo (r : Nat)
  | unwind (r : Nat)
  | learn
  | tlcReceive
  | tlcDaemon

def lockStep (i : Fin N) (paxosID : Nat) (s : Locked) : LockEvent N → Option Locked
  | .propose value => s.lock (N := N) fun p => some (propose p value)
  | .promise c => s.paxosPromiseCallback N c
  | .tlc t => s.tlcCallback N t
  | .prepareMsg step id source => s.lock (N := N) fun p => some (paxosPrepareCallback p step id source)
  | .proposeMsg step id value => s.lock (N := N) fun p => some (paxosProposeCallback p step id value)
  | .acceptMsg c => s.lock (N := N) fun p => some (paxosAcceptCallback p c)
  | .prepare r => s.lock fun _ => s.call r (prepare i)
  | .readPromise r => s.readPromise N r
  | .fire r => s.fire N r
  | .timeoutOne r => s.timeoutOne N r
  | .enterTwo r => s.lock fun _ => s.call r (enterTwo i 0)
  | .signalled r => (s.call (N := N) r signalled).map fun e => { s with peer := e.peer }
  | .timeoutTwo r => s.lock (N := N) fun _ => s.call r timeoutTwo
  | .unwind r => s.lock (N := N) fun _ => s.call r unwind
  | .learn => (learn i s.peer).map fun e => { s with peer := e.peer }
  | .tlcReceive => s.tlcReceive
  | .tlcDaemon => s.tlcDaemon N paxosID

/-! ## The daemon as one step -/

/-- The message that the daemon is about to advance with. -/
def Daemon.target : Daemon → Option TLC
  | .advancing tlc => some tlc
  | _ => none

section Daemon

variable {i : Fin N} {paxosID : Nat} {e : Effect N} {p p' : Peer} {timed : List Nat} {d d' : Daemon} {tlc : TLC}

theorem daemon_step (h : tlcSection N paxosID p d = some (p', d')) :
    lockStep i paxosID ⟨p, none, timed, d⟩ .tlcDaemon = some ⟨p', none, timed, d'⟩ := by
  simp [lockStep, Locked.tlcDaemon, h]

/-- With enough messages for the current step the daemon goes on to the advance. -/
theorem reached_run (hstep : p.step = tlc.step) :
    run (lockStep i paxosID) ⟨p, none, timed, .comparing tlc⟩ [.tlcDaemon, .tlcDaemon, .tlcDaemon] =
      some ⟨{ p with tlcSent := true }, none, timed, .advancing tlc⟩ := by
  have hcompare : tlcSection N paxosID p (.comparing tlc) = some (p, .reached tlc false) := by
    simp [tlcSection, hstep]
  have hreach : tlcSection N paxosID p (.reached tlc false) = some (p, .storing tlc false) := by
    simp [tlcSection, hstep]
  have hstore : tlcSection N paxosID p (.storing tlc false) = some ({ p with tlcSent := true }, .advancing tlc) := by
    simp [tlcSection, hstep]
  rw [run_cons (daemon_step hcompare), run_cons (daemon_step hreach), run_cons (daemon_step hstore)]
  rfl

/-- What `tlcRead` takes for one step is a run of the daemon that gets the mutex each time. -/
theorem tlcRead_run (h : tlcRead p = some e) :
    ∃ es s', run (lockStep i paxosID) ⟨p, none, timed, .receiving⟩ es = some s' ∧ s'.sender = none ∧
      e.peer = { s'.peer with advancing := s'.daemon.target } := by
  unfold tlcRead at h
  split at h
  · rename_i tlc rest hadv hch
    have hreceive : lockStep i paxosID ⟨p, none, timed, .receiving⟩ .tlcReceive =
        some ⟨{ p with tlcCh := rest }, none, timed, .checking tlc⟩ := by
      simp [lockStep, Locked.tlcReceive, hch, Locked.admitTLC]
    obtain ⟨p₁, d, hcollect⟩ : ∃ p₁ d, tlcCollect N { p with tlcCh := rest } tlc = (p₁, d) := ⟨_, _, rfl⟩
    have hcheck : lockStep i paxosID ⟨{ p with tlcCh := rest }, none, timed, .checking tlc⟩ .tlcDaemon =
        some ⟨p₁, none, timed, d⟩ := daemon_step (by rw [tlcSection, hcollect])
    have hread : run (lockStep i paxosID) ⟨p, none, timed, .receiving⟩ [.tlcReceive, .tlcDaemon] =
        some ⟨p₁, none, timed, d⟩ := by
      rw [run_cons hreceive, run_cons hcheck]
      rfl
    unfold tlcCollect at hcollect
    by_cases hstale : tlc.step < p.step
    · simp only [hstale, if_true] at h hcollect
      cases hcollect
      cases h
      exact ⟨_, _, hread, rfl, by simp [Daemon.target, hadv]⟩
    · simp only [hstale, if_false] at h hcollect
      by_cases hfew : ((p.stepTLCMsgs ++ [tlc]).filter (·.step = tlc.step)).length < threshold N
      · simp only [hfew, true_or, if_true] at h hcollect
        cases hcollect
        cases h
        exact ⟨_, _, hread, rfl, by simp [Daemon.target, hadv]⟩
      · simp only [hfew, false_or, if_false] at h hcollect
        cases hcollect
        by_cases hstep : p.step = tlc.step
        · rw [if_neg (not_not.mpr hstep)] at h
          cases h
          exact ⟨_, _, run_append _ _ hread (reached_run hstep), rfl, rfl⟩
        · rw [if_pos hstep] at h
          cases h
          have hcompare : tlcSection N paxosID { p with tlcCh := rest, stepTLCMsgs := p.stepTLCMsgs ++ [tlc] }
              (.comparing tlc) = some ({ p with tlcCh := rest, stepTLCMsgs := p.stepTLCMsgs ++ [tlc] }, .receiving) := by
            simp [tlcSection, hstep]
          exact ⟨_, _, run_append _ _ hread (run_cons (daemon_step hcompare) []), rfl, by simp [Daemon.target, hadv]⟩
  · cases h

end Daemon

/-! ## Stuck -/

/-- The call is at its receive of a promise. -/
def Routine.Reads (N : Nat) (t : Routine) : Prop :=
  ∃ fired, t.pc = .waitOne fired ∧ t.read.length + fired.toNat < threshold N

/-- The call is on its way to the mutex. -/
def Routine.Locks (N : Nat) (t : Routine) : Prop :=
  t.pc = .loop ∨ t.pc = .exiting ∨ ∃ fired, t.pc = .waitOne fired ∧ threshold N ≤ t.read.length + fired.toNat

/-- Call `r` receives from the channel of the current step. -/
def Receives (N : Nat) (s : Locked) (r : Nat) : Prop :=
  ∃ t, s.peer.routines[r]? = some t ∧ t.step = s.peer.step ∧ t.Reads N ∧ r ∉ s.timed

/-- Call `r`, which would receive from it, waits for the mutex. -/
def WaitsForLock (N : Nat) (s : Locked) (r : Nat) : Prop :=
  ∃ t, s.peer.routines[r]? = some t ∧ t.step = s.peer.step ∧ (t.Locks N ∨ r ∈ s.timed)

/-- At every other place the daemon waits for the mutex. -/
def Daemon.WaitsForLock : Daemon → Prop
  | .receiving => False
  | _ => True

/-- A callback holds the mutex until somebody receives from its channel, and whoever could do so waits for
the mutex. -/
def Stuck (N : Nat) (s : Locked) : Prop :=
  match s.sender with
  | none => False
  | some (.promise _) => (∃ r, WaitsForLock N s r) ∧ ∀ r, ¬ Receives N s r
  | some (.tlc _) => s.daemon.WaitsForLock

/-- What a run has to avoid: a callback that sends to a full channel while nobody is at its receive, and a
timer that takes away the last receiver of a blocked callback. -/
def Served (N : Nat) (s : Locked) : LockEvent N → Prop
  | .promise c => c.step = s.peer.step → s.peer.phase = .phaseOne →
      s.peer.promiseCh.length < N ∨ ∃ r, Receives N s r
  | .tlc t => s.peer.step ≤ t.step → s.peer.tlcCh.length < N ∨ ¬ s.daemon.WaitsForLock
  | .fire r => (∃ c, s.sender = some (.promise c)) → ∃ r' ≠ r, Receives N s r'
  | _ => True

section Decidable

variable (N : Nat) (s : Locked)

theorem Receives.lt {N : Nat} {s : Locked} {r : Nat} (h : Receives N s r) : r < s.peer.routines.length := by
  obtain ⟨t, hr, -⟩ := h
  exact (List.getElem?_eq_some_iff.mp hr).1

theorem WaitsForLock.lt {N : Nat} {s : Locked} {r : Nat} (h : WaitsForLock N s r) :
    r < s.peer.routines.length := by
  obtain ⟨t, hr, -⟩ := h
  exact (List.getElem?_eq_some_iff.mp hr).1

instance (t : Routine) : Decidable (t.Reads N) := inferInstanceAs (Decidable (∃ _ : Bool, _))

instance (t : Routine) : Decidable (t.Locks N) := inferInstanceAs (Decidable (_ ∨ _ ∨ ∃ _ : Bool, _))

instance (r : Nat) : Decidable (Receives N s r) :=
  decidable_of_iff (∃ t ∈ s.peer.routines[r]?, t.step = s.peer.step ∧ t.Reads N ∧ r ∉ s.timed) Iff.rfl

instance (r : Nat) : Decidable (WaitsForLock N s r) :=
  decidable_of_iff (∃ t ∈ s.peer.routines[r]?, t.step = s.peer.step ∧ (t.Locks N ∨ r ∈ s.timed)) Iff.rfl

instance (d : Daemon) : Decidable d.WaitsForLock :=
  match d with
  | .receiving => isFalse id
  | .checking _ | .comparing _ | .reached _ _ | .storing _ _ | .advancing _ => isTrue trivial

instance : Decidable (Stuck N s) :=
  match h : s.sender with
  | none => isFalse (by simp [Stuck, h])
  | some (.promise _) =>
    decidable_of_iff ((∃ r < s.peer.routines.length, WaitsForLock N s r) ∧
        ∀ r < s.peer.routines.length, ¬ Receives N s r) <| by
      simp only [Stuck, h]
      constructor
      · rintro ⟨⟨r, -, hw⟩, hr⟩
        exact ⟨⟨r, hw⟩, fun q hq => hr q hq.lt hq⟩
      · rintro ⟨⟨r, hw⟩, hr⟩
        exact ⟨⟨r, hw.lt, hw⟩, fun q _ => hr q⟩
  | some (.tlc _) => decidable_of_iff s.daemon.WaitsForLock (by simp [Stuck, h])

end Decidable

end MarketPeer.Paxos
