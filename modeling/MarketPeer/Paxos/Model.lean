import Mathlib.Algebra.Group.Nat.Defs
import Mathlib.Data.Fintype.Basic
import Mathlib.Logic.Function.Basic
import MarketPeer.Lib.Runs

/-!
# MultiPaxos

`peer/impl/consensus.go`: the callbacks, the propose routines, the learner and the
clock daemon of every peer, and the rumors between them. Each critical section is
one step. A rumor can be delivered to any peer at any later time, once, or never;
a timer can fire whenever its routine waits.
-/

namespace MarketPeer.Paxos

structure PaxosValue where
  uniqID : String
  filename : String
  metahash : String
  deriving DecidableEq

structure Config (N : Nat) where
  paxosID : Fin N → Nat
  distinct : Function.Injective paxosID
  inRange : ∀ i, 1 ≤ paxosID i ∧ paxosID i ≤ N

def threshold (N : Nat) : Nat := N / 2 + 1

/-! ## Messages -/

/-- A promise is a private message; of a TLC message the block is left out but for its value. -/
inductive Msg (N : Nat) where
  | prepare (step id : Nat) (source : Fin N)
  | promise (recipient : Fin N) (step id acceptedID : Nat) (acceptedValue : Option PaxosValue)
  | propose (step id : Nat) (value : PaxosValue)
  | accept (step id : Nat) (value : PaxosValue)
  | tlc (step : Nat) (value : PaxosValue)
  deriving DecidableEq

structure Rumor (N : Nat) where
  origin : Fin N
  msg : Msg N
  deriving DecidableEq

/-- A promise in `promiseCh`, with the number of the rumor it came in. -/
structure Promise where
  rumor : Nat
  step : Nat
  id : Nat
  acceptedID : Nat
  acceptedValue : Option PaxosValue

structure Accept where
  rumor : Nat
  step : Nat
  id : Nat
  value : PaxosValue

structure TLC where
  step : Nat
  value : PaxosValue

/-! ## The state of a peer -/

inductive Phase where
  | notPropose
  | phaseOne
  | phaseTwo
  deriving DecidableEq

/-- Where a call of `propose` is: at the head of its loop, waiting for promises (the timer has
fired or not), waiting in phase two, in its deferred functions, gone. -/
inductive PC where
  | loop
  | waitOne (fired : Bool)
  | waitTwo
  | exiting
  | done
  deriving DecidableEq

/-- A call of `propose` with `depth` calls of itself above it. `read` are the promises that the
wait for phase one has taken from the channel. -/
structure Routine where
  step : Nat
  value : PaxosValue
  highestAcceptedID : Nat
  proposedValue : PaxosValue
  pc : PC
  read : List Promise
  depth : Nat

/-- The fields of `MultiPaxos` with the routines that run on it. `promiseCh`, `signal` and
`acceptCh` are the channels of the current step. -/
structure Peer where
  step : Nat
  proposalID : Nat
  proposalMaxID : Nat
  acceptedID : Nat
  acceptedValue : Option PaxosValue
  tlcSent : Bool
  phase : Phase
  promiseCh : List Promise
  acceptCh : List Accept
  tlcCh : List TLC
  stepTLCMsgs : List TLC
  signal : Option PaxosValue
  idAccepts : List Accept
  learned : Bool
  advancing : Option TLC
  routines : List Routine
  processed : List Nat

def Peer.init (paxosID : Nat) : Peer where
  step := 0
  proposalID := paxosID
  proposalMaxID := 0
  acceptedID := 0
  acceptedValue := none
  tlcSent := false
  phase := .notPropose
  promiseCh := []
  acceptCh := []
  tlcCh := []
  stepTLCMsgs := []
  signal := none
  idAccepts := []
  learned := false
  advancing := none
  routines := []
  processed := []

structure Proposal (N : Nat) where
  peer : Fin N
  rumor : Nat
  step : Nat
  id : Nat
  value : PaxosValue
  promises : List Promise

structure Decision (N : Nat) where
  peer : Fin N
  step : Nat
  value : PaxosValue
  deriving DecidableEq

/-- What a step of one peer leaves: its new state, a broadcast, and what goes into the two logs. -/
structure Effect (N : Nat) where
  peer : Peer
  broadcast : Option (Msg N) := none
  proposal : Option (Proposal N) := none
  decision : Option (Decision N) := none

/-! ## Callbacks -/

variable {N : Nat}

def paxosPrepareCallback (p : Peer) (step id : Nat) (source : Fin N) : Effect N :=
  if step ≠ p.step then ⟨p, none, none, none⟩
  else if id ≤ p.proposalMaxID then ⟨p, none, none, none⟩
  else
    { peer := { p with proposalMaxID := id }
      broadcast := some (.promise source p.step id p.acceptedID p.acceptedValue) }

def paxosProposeCallback (p : Peer) (step id : Nat) (value : PaxosValue) : Effect N :=
  if step ≠ p.step then ⟨p, none, none, none⟩
  else if id ≠ p.proposalMaxID then ⟨p, none, none, none⟩
  else
    { peer := { p with acceptedID := id, acceptedValue := some value }
      broadcast := some (.accept p.step p.proposalMaxID value) }

/-- The channel has room for `N` promises; the callback blocks while it is full. -/
def paxosPromiseCallback (p : Peer) (promise : Promise) : Option (Effect N) :=
  if promise.step ≠ p.step then some ⟨p, none, none, none⟩
  else if p.phase ≠ .phaseOne then some ⟨p, none, none, none⟩
  else if p.promiseCh.length < N then some { peer := { p with promiseCh := p.promiseCh ++ [promise] } }
  else none

/-- An accept that finds the channel full is skipped. -/
def paxosAcceptCallback (p : Peer) (accept : Accept) : Effect N :=
  if accept.step ≠ p.step then ⟨p, none, none, none⟩
  else if p.acceptCh.length < N then { peer := { p with acceptCh := p.acceptCh ++ [accept] } }
  else ⟨p, none, none, none⟩

def tlcCallback (p : Peer) (tlc : TLC) : Option (Effect N) :=
  if p.step > tlc.step then some ⟨p, none, none, none⟩
  else if p.tlcCh.length < N then some { peer := { p with tlcSent := true, tlcCh := p.tlcCh ++ [tlc] } }
  else none

/-- The callback for rumor `k`; a private message is for its recipient only. -/
def processRumor (i : Fin N) (k : Nat) (msg : Msg N) (p : Peer) : Option (Effect N) :=
  match msg with
  | .prepare step id source => some (paxosPrepareCallback p step id source)
  | .promise recipient step id acceptedID acceptedValue =>
    if recipient ≠ i then some ⟨p, none, none, none⟩
    else paxosPromiseCallback p ⟨k, step, id, acceptedID, acceptedValue⟩
  | .propose step id value => some (paxosProposeCallback p step id value)
  | .accept step id value => some (paxosAcceptCallback p ⟨k, step, id, value⟩)
  | .tlc step value => tlcCallback p ⟨step, value⟩

/-! ## The proposer -/

/-- `Propose`: one call at a time gets past the phase. -/
def propose (p : Peer) (value : PaxosValue) : Effect N :=
  if p.phase = .notPropose then
    { peer := { p with
        phase := .phaseOne
        routines := p.routines ++ [⟨p.step, value, 0, value, .loop, [], 0⟩] } }
  else ⟨p, none, none, none⟩

def Peer.setRoutine (p : Peer) (r : Nat) (t : Routine) : Peer := { p with routines := p.routines.set r t }

def exitRoutine (p : Peer) (r : Nat) (t : Routine) : Effect N :=
  { peer := p.setRoutine r { t with pc := .exiting } }

def nextProposalID (N proposalID : Nat) : Nat := (proposalID + N) % 2 ^ 64

/-- The head of the loop of phase one, first or again after a timeout. -/
def prepare (i : Fin N) (p : Peer) (r : Nat) (t : Routine) : Option (Effect N) :=
  if t.pc = .loop ∨ (t.pc = .waitOne true ∧ t.read.length + 1 = threshold N) then
    if t.step ≠ p.step then some (exitRoutine p r t)
    else
      some
        { peer := { p.setRoutine r { t with pc := .waitOne false, read := [] } with phase := .phaseOne }
          broadcast := some (.prepare t.step p.proposalID i) }
  else none

/-- One promise out of the channel. It also counts after the timer has fired, and whatever ballot it
is for. A call of an old step can only read what is left of an old channel, which changes nothing. -/
def readPromise (p : Peer) (r : Nat) (t : Routine) : Option (Effect N) :=
  match t.pc, p.promiseCh with
  | .waitOne fired, c :: rest =>
    if t.step = p.step ∧ t.read.length + fired.toNat < threshold N then
      let p := { p with promiseCh := rest }
      if t.highestAcceptedID < c.acceptedID then
        c.acceptedValue.map fun v =>
          { peer := p.setRoutine r
              { t with highestAcceptedID := c.acceptedID, proposedValue := v, read := t.read ++ [c] } }
      else some { peer := p.setRoutine r { t with read := t.read ++ [c] } }
    else none
  | _, _ => none

def timeoutOne (p : Peer) (r : Nat) (t : Routine) : Option (Effect N) :=
  if t.pc = .waitOne false ∧ t.read.length < threshold N then
    if t.step ≠ p.step then some (exitRoutine p r t)
    else
      some
        { peer := { p.setRoutine r { t with pc := .waitOne true } with
            proposalID := nextProposalID N p.proposalID } }
  else none

def enterTwo (i : Fin N) (now : Nat) (p : Peer) (r : Nat) (t : Routine) : Option (Effect N) :=
  if t.pc = .waitOne false ∧ t.read.length = threshold N then
    if t.step ≠ p.step then some (exitRoutine p r t)
    else
      some
        { peer := { p.setRoutine r { t with pc := .waitTwo, read := [] } with phase := .phaseTwo }
          broadcast := some (.propose t.step p.proposalID t.proposedValue)
          proposal := some ⟨i, now, t.step, p.proposalID, t.proposedValue, t.read⟩ }
  else none

def signalled (p : Peer) (r : Nat) (t : Routine) : Option (Effect N) :=
  if t.pc = .waitTwo ∧ t.step = p.step ∧ p.signal.isSome then
    some { peer := { p.setRoutine r { t with pc := .exiting } with signal := none } }
  else none

/-- The timer of phase two: `propose` calls itself with the value it was called with. -/
def timeoutTwo (p : Peer) (r : Nat) (t : Routine) : Option (Effect N) :=
  if t.pc = .waitTwo then
    if t.step ≠ p.step then some (exitRoutine p r t)
    else
      some
        { peer := { p.setRoutine r ⟨t.step, t.value, 0, t.value, .loop, [], t.depth + 1⟩ with
            proposalID := nextProposalID N p.proposalID } }
  else none

/-- One deferred function: back to `NOTPROPOSE`, when the step is still the same. -/
def unwind (p : Peer) (r : Nat) (t : Routine) : Option (Effect N) :=
  if t.pc = .exiting then
    let t' := if t.depth = 0 then { t with pc := .done } else { t with depth := t.depth - 1 }
    some { peer := { p.setRoutine r t' with phase := if t.step = p.step then .notPropose else p.phase } }
  else none

/-! ## The learner and the clock -/

/-- One accept out of the channel. Accepts are grouped by the ID of their value alone. -/
def learn (i : Fin N) (p : Peer) : Option (Effect N) :=
  match p.acceptCh with
  | [] => none
  | accept :: rest =>
    if p.learned ∨ accept.step ≠ p.step then none
    else
      let idAccepts := p.idAccepts ++ [accept]
      let p' := { p with acceptCh := rest, idAccepts := idAccepts }
      if threshold N ≤ (idAccepts.filter (·.value.uniqID = accept.value.uniqID)).length then
        some
          { peer := { p' with
              learned := true
              signal := if p.phase = .phaseTwo then some accept.value else p.signal }
            broadcast := some (.tlc p.step accept.value)
            decision := some ⟨i, p.step, accept.value⟩ }
      else some { peer := p' }

/-- `tlcDaemon` up to the broadcast of `onTLCReachedAtCurrentStep`. -/
def tlcRead (p : Peer) : Option (Effect N) :=
  match p.advancing, p.tlcCh with
  | none, tlc :: rest =>
    let p := { p with tlcCh := rest }
    if tlc.step < p.step then some { peer := p }
    else
      let p := { p with stepTLCMsgs := p.stepTLCMsgs ++ [tlc] }
      if (p.stepTLCMsgs.filter (·.step = tlc.step)).length < threshold N ∨ p.step ≠ tlc.step then
        some { peer := p }
      else
        some
          { peer := { p with tlcSent := true, advancing := some tlc }
            broadcast := if p.tlcSent then none else some (.tlc tlc.step tlc.value) }
  | _, _ => none

/-- `advanceClockAsStep`, and the next advance when enough is there to catch up. -/
def tlcAdvance (paxosID : Nat) (p : Peer) : Option (Effect N) :=
  p.advancing.map fun tlc =>
    if p.step ≠ tlc.step then { peer := { p with advancing := none } }
    else
      let step := (p.step + 1) % 2 ^ 64
      let stepTLCMsgs := p.stepTLCMsgs.filter (·.step ≠ p.step)
      let msgs := stepTLCMsgs.filter (·.step = step)
      { peer := { p with
          step
          stepTLCMsgs
          proposalID := paxosID
          proposalMaxID := 0
          acceptedID := 0
          acceptedValue := none
          tlcSent := false
          phase := .notPropose
          promiseCh := []
          acceptCh := []
          signal := none
          idAccepts := []
          learned := false
          advancing := if threshold N ≤ msgs.length then msgs.head? else none } }

/-! ## The system -/

/-- The peers, all rumors in the order they were made, and what was proposed and decided. -/
structure World (N : Nat) where
  peers : Fin N → Peer
  sent : List (Rumor N)
  proposed : List (Proposal N)
  decided : List (Decision N)

def World.init (cfg : Config N) : World N := ⟨fun i => .init (cfg.paxosID i), [], [], []⟩

inductive Action where
  | propose (value : PaxosValue)
  | deliver (rumor : Nat)
  | prepare (r : Nat)
  | readPromise (r : Nat)
  | timeoutOne (r : Nat)
  | enterTwo (r : Nat)
  | signalled (r : Nat)
  | timeoutTwo (r : Nat)
  | unwind (r : Nat)
  | learn
  | tlcRead
  | tlcAdvance

structure Event (N : Nat) where
  peer : Fin N
  action : Action

def deliver (w : World N) (i : Fin N) (k : Nat) : Option (Effect N) :=
  let p := w.peers i
  if k ∈ p.processed then none
  else (w.sent[k]?).bind fun rumor => processRumor i k rumor.msg { p with processed := k :: p.processed }

def act (cfg : Config N) (w : World N) (i : Fin N) : Action → Option (Effect N)
  | .propose value => some (propose (w.peers i) value)
  | .deliver k => deliver w i k
  | .prepare r => ((w.peers i).routines[r]?).bind (prepare i (w.peers i) r)
  | .readPromise r => ((w.peers i).routines[r]?).bind (readPromise (w.peers i) r)
  | .timeoutOne r => ((w.peers i).routines[r]?).bind (timeoutOne (w.peers i) r)
  | .enterTwo r => ((w.peers i).routines[r]?).bind (enterTwo i w.sent.length (w.peers i) r)
  | .signalled r => ((w.peers i).routines[r]?).bind (signalled (w.peers i) r)
  | .timeoutTwo r => ((w.peers i).routines[r]?).bind (timeoutTwo (w.peers i) r)
  | .unwind r => ((w.peers i).routines[r]?).bind (unwind (w.peers i) r)
  | .learn => learn i (w.peers i)
  | .tlcRead => tlcRead (w.peers i)
  | .tlcAdvance => tlcAdvance (cfg.paxosID i) (w.peers i)

def World.commit (w : World N) (i : Fin N) (e : Effect N) : World N where
  peers := Function.update w.peers i e.peer
  sent := w.sent ++ e.broadcast.toList.map (⟨i, ·⟩)
  proposed := w.proposed ++ e.proposal.toList
  decided := w.decided ++ e.decision.toList

def step (cfg : Config N) (w : World N) (e : Event N) : Option (World N) :=
  (act cfg w e.peer e.action).map (w.commit e.peer)

end MarketPeer.Paxos
