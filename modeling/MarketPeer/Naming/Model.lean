import MarketPeer.Go.Encoding
import MarketPeer.Paxos.Model

/-!
# Names and their blocks

The part of `peer/impl` above Paxos: `Tag`, the end of the learner, the TLC messages
and `tlcDaemon`, on every peer. What a learner learns comes from outside. Each critical
section is one step; a TLC message can be delivered to any peer at any later time, once
or never. The steps of the clock are numbers here: no run of a peer comes to 2^64 of them.
-/

namespace MarketPeer.Naming

open MarketPeer.Paxos (PaxosValue)

structure Config where
  sha256 : Bytes → Bytes
  /-- `PaxosThreshold` of all peers -/
  threshold : Nat

/-! ## Blocks -/

structure Block where
  index : Nat
  hash : Bytes
  value : PaxosValue
  prevHash : Bytes
  deriving DecidableEq

structure TLC where
  step : Nat
  block : Block
  deriving DecidableEq

/-- What is hashed for a block, before the hash of the one below. -/
def blockText (index : Nat) (v : PaxosValue) : Bytes :=
  stringBytes (toString index ++ v.uniqID ++ v.filename ++ v.metahash)

def zeroHash : Bytes := List.replicate 32 0

def LastBlockKey : String := String.ofList (List.replicate 64 '0')

/-- A value of the block store: a block, or the hash that is kept under `LastBlockKey`. The JSON of
a block is left out. -/
inductive Entry where
  | block (b : Block)
  | hash (h : Bytes)

/-! ## The state of a peer -/

/-- The learner of the current step: reading accepts, with a value that has enough of them, with its
block, or waiting for the next step. -/
inductive Learner where
  | counting
  | learned (value : PaxosValue)
  | assembled (block : Block)
  | waiting

/-- Where `tlcDaemon` is: at its channel, before the critical section of `onTLCReachedAtCurrentStep`, in it
and before `onConsensusReach`, before its broadcast, before the step is advanced. -/
inductive Daemon where
  | idle
  | reached (tlc : TLC) (catchingup : Bool)
  | storing (tlc : TLC) (catchingup : Bool)
  | announcing (tlc : TLC) (broadcast : Bool)
  | advancing (tlc : TLC)

/-- `onProposing` is a phase other than `NOTPROPOSE`. `chain` records the blocks that were stored, newest
first. -/
structure Peer where
  step : Nat
  onProposing : Bool
  tlcSent : Bool
  tlcCh : List TLC
  stepTLCMsgs : Nat → List TLC
  stepFinish : Nat → Option PaxosValue
  blockchain : String → Option Entry
  naming : String → Option String
  learner : Learner
  daemon : Daemon
  processed : List Nat
  chain : List Block

/-- A new peer; its naming store may have entries. -/
def Peer.init (naming : String → Option String) : Peer where
  step := 0
  onProposing := false
  tlcSent := false
  tlcCh := []
  stepTLCMsgs := fun _ => []
  stepFinish := fun _ => none
  blockchain := fun _ => none
  naming
  learner := .counting
  daemon := .idle
  processed := []
  chain := []

/-- The mutex of the peer is held across steps in one place only. -/
def Peer.locked (p : Peer) : Bool :=
  match p.daemon with
  | .storing _ _ => true
  | _ => false

/-! ## The system -/

/-- Where a call of `Tag` is: before its look at the naming store, before `Propose`, or at the channel of a
step, with its own proposal or with `ErrOnProposing`. -/
inductive CallPC where
  | checking
  | proposing
  | waiting (step : Nat) (own : Bool)
  | returned (ok : Bool)

structure Call (N : Nat) where
  peer : Fin N
  value : PaxosValue
  pc : CallPC

/-- The peers, the calls of `Tag`, the TLC messages in the order they were sent, and three records: what was
proposed and learned in which step, and the blocks that learners made. -/
structure System (N : Nat) where
  peers : Fin N → Peer
  calls : List (Call N)
  sent : List TLC
  proposed : List (Nat × PaxosValue)
  learned : List (Nat × PaxosValue)
  made : List Block

variable {N : Nat}

def System.init (naming : Fin N → String → Option String) : System N :=
  ⟨fun i => .init (naming i), [], [], [], [], []⟩

def System.setPeer (s : System N) (i : Fin N) (p : Peer) : System N :=
  { s with peers := Function.update s.peers i p }

def System.setCall (s : System N) (k : Nat) (c : Call N) : System N := { s with calls := s.calls.set k c }

/-! ## Tag -/

/-- The entry of `Tag`. A peer on its own writes the name at once. -/
def tag (s : System N) (i : Fin N) (value : PaxosValue) : System N :=
  if N ≤ 1 then
    let p := s.peers i
    { s.setPeer i { p with naming := Function.update p.naming value.filename (some value.metahash) } with
      calls := s.calls ++ [⟨i, value, .returned true⟩] }
  else { s with calls := s.calls ++ [⟨i, value, .checking⟩] }

def checkName (s : System N) (k : Nat) : Option (System N) :=
  match s.calls[k]? with
  | some ⟨i, value, .checking⟩ =>
    if ((s.peers i).naming value.filename).isSome then some (s.setCall k ⟨i, value, .returned false⟩)
    else some (s.setCall k ⟨i, value, .proposing⟩)
  | _ => none

/-- `Propose` reads the step that is current when it is called. -/
def propose (s : System N) (k : Nat) : Option (System N) :=
  match s.calls[k]? with
  | some ⟨i, value, .proposing⟩ =>
    let p := s.peers i
    if p.locked then none
    else if p.onProposing then some (s.setCall k ⟨i, value, .waiting p.step false⟩)
    else
      some { (s.setCall k ⟨i, value, .waiting p.step true⟩).setPeer i { p with onProposing := true } with
        proposed := s.proposed ++ [(p.step, value)] }
  | _ => none

/-- The call of `propose` returns with the signal of the learner, and the phase goes back. After the end of
the step it leaves the phase alone. -/
def proposeReturns (p : Peer) : Option Peer :=
  match p.learner with
  | .counting => none
  | _ => if p.locked then none else some { p with onProposing := false }

/-- A receive from `stepFinish`; the channel has one value. -/
def finish (s : System N) (k : Nat) : Option (System N) :=
  match s.calls[k]? with
  | some ⟨i, value, .waiting step own⟩ =>
    let p := s.peers i
    match p.stepFinish step with
    | some consensusValue =>
      let pc := if own ∧ value.uniqID = consensusValue.uniqID then .returned true else .checking
      some ((s.setCall k ⟨i, value, pc⟩).setPeer i
        { p with stepFinish := Function.update p.stepFinish step none })
    | none => none
  | _ => none

/-! ## The learner -/

def learn (p : Peer) (value : PaxosValue) : Option Peer :=
  match p.learner with
  | .counting => some { p with learner := .learned value }
  | _ => none

def Peer.lastHash (p : Peer) : Bytes :=
  match p.blockchain LastBlockKey with
  | some (.hash h) => h
  | _ => zeroHash

/-- `onConsensusReachAtStep` up to the block. The last hash is read without the mutex. -/
def assemble (cfg : Config) (p : Peer) (value : PaxosValue) : Block :=
  { index := p.step
    hash := cfg.sha256 (blockText p.step value ++ p.lastHash)
    value
    prevHash := p.lastHash }

/-! ## The clock -/

def tlcCallback (N : Nat) (p : Peer) (tlc : TLC) : Option Peer :=
  if p.locked then none
  else if p.step > tlc.step then some p
  else if p.tlcCh.length < N then some { p with tlcSent := true, tlcCh := p.tlcCh ++ [tlc] }
  else none

/-- `tlcDaemon` from its channel to the call of `onTLCReachedAtCurrentStep`. -/
def readTLC (cfg : Config) (p : Peer) : Option Peer :=
  match p.daemon, p.tlcCh with
  | .idle, tlc :: rest =>
    let p := { p with tlcCh := rest }
    if tlc.step < p.step then some p
    else
      let msgs := p.stepTLCMsgs tlc.step ++ [tlc]
      let p := { p with stepTLCMsgs := Function.update p.stepTLCMsgs tlc.step msgs }
      if msgs.length < cfg.threshold ∨ p.step ≠ tlc.step then some p
      else some { p with daemon := .reached tlc false }
  | _, _ => none

/-- The two writes to the block store. -/
def storeBlock (p : Peer) : Option Peer :=
  match p.daemon with
  | .reached tlc catchingup =>
    if p.step ≠ tlc.step then some { p with daemon := .idle }
    else
      let blockchain := Function.update p.blockchain (hexEncode tlc.block.hash) (some (.block tlc.block))
      some { p with
        blockchain := Function.update blockchain LastBlockKey (some (.hash tlc.block.hash))
        chain := tlc.block :: p.chain
        daemon := .storing tlc catchingup }
  | _ => none

/-- `onConsensusReach` writes the name, and the rest of the critical section decides on the broadcast. -/
def writeName (p : Peer) : Option Peer :=
  match p.daemon with
  | .storing tlc catchingup =>
    let v := tlc.block.value
    let broadcast := !catchingup && !p.tlcSent
    some { p with
      naming := Function.update p.naming v.filename (some v.metahash)
      tlcSent := p.tlcSent || broadcast
      daemon := .announcing tlc broadcast }
  | _ => none

/-- The send on `learnerAdvance` needs a learner that receives. -/
def Learner.receives : Learner → Bool
  | .counting => true
  | .waiting => true
  | _ => false

/-- `advanceClockAsStep`, and the look at the messages of the next step. -/
def advance (cfg : Config) (p : Peer) : Option Peer :=
  match p.daemon with
  | .advancing tlc =>
    if p.step ≠ tlc.step then some { p with daemon := .idle }
    else if p.learner.receives then
      let stepTLCMsgs := Function.update p.stepTLCMsgs p.step []
      let daemon :=
        match stepTLCMsgs (p.step + 1) with
        | msg :: msgs => if cfg.threshold ≤ msgs.length + 1 then .reached msg true else .idle
        | [] => .idle
      some { p with
        step := p.step + 1
        onProposing := false
        tlcSent := false
        stepTLCMsgs
        stepFinish := Function.update p.stepFinish p.step (some tlc.block.value)
        learner := .counting
        daemon }
    else none
  | _ => none

/-! ## Steps -/

/-- An action of the peer of an event, or of a call of `Tag`. -/
inductive Event (N : Nat) where
  | tag (i : Fin N) (value : PaxosValue)
  | checkName (k : Nat)
  | propose (k : Nat)
  | finish (k : Nat)
  | proposeReturns (i : Fin N)
  | learn (i : Fin N) (value : PaxosValue)
  | assemble (i : Fin N)
  | broadcast (i : Fin N)
  | receive (i : Fin N) (rumor : Nat)
  | readTLC (i : Fin N)
  | storeBlock (i : Fin N)
  | writeName (i : Fin N)
  | announce (i : Fin N)
  | advance (i : Fin N)

def step (cfg : Config) (s : System N) : Event N → Option (System N)
  | .tag i value => some (tag s i value)
  | .checkName k => checkName s k
  | .propose k => propose s k
  | .finish k => finish s k
  | .proposeReturns i => (proposeReturns (s.peers i)).map (s.setPeer i)
  | .learn i value => (learn (s.peers i) value).map fun p =>
      { s.setPeer i p with learned := s.learned ++ [(p.step, value)] }
  | .assemble i =>
    match (s.peers i).learner with
    | .learned value =>
      let b := assemble cfg (s.peers i) value
      some { s.setPeer i { s.peers i with learner := .assembled b } with made := s.made ++ [b] }
    | _ => none
  | .broadcast i =>
    match (s.peers i).learner with
    | .assembled b =>
      some { s.setPeer i { s.peers i with learner := .waiting } with sent := s.sent ++ [⟨(s.peers i).step, b⟩] }
    | _ => none
  | .receive i rumor =>
    if rumor ∈ (s.peers i).processed then none
    else (s.sent[rumor]?).bind fun tlc =>
      (tlcCallback N { s.peers i with processed := rumor :: (s.peers i).processed } tlc).map (s.setPeer i)
  | .readTLC i => (readTLC cfg (s.peers i)).map (s.setPeer i)
  | .storeBlock i => (storeBlock (s.peers i)).map (s.setPeer i)
  | .writeName i => (writeName (s.peers i)).map (s.setPeer i)
  | .announce i =>
    match (s.peers i).daemon with
    | .announcing tlc broadcast =>
      some { s.setPeer i { s.peers i with daemon := .advancing tlc } with
        sent := s.sent ++ if broadcast then [tlc] else [] }
    | _ => none
  | .advance i => (advance cfg (s.peers i)).map (s.setPeer i)

/-! ## A configuration to compute with -/

/-- Hashing keeps the first 32 bytes, which differ for the blocks of a short chain. -/
def sampleConfig : Config where
  sha256 bs := (bs ++ List.replicate 32 1).take 32
  threshold := 2

/-- Two peers go through a step: both learn, both messages reach both, both daemons store and advance.
`sent` is the number of messages before. -/
def sampleRound (v : PaxosValue) (sent : Nat) : List (Event 2) :=
  [.learn 0 v, .learn 1 v, .assemble 0, .assemble 1, .broadcast 0, .broadcast 1,
    .receive 0 sent, .receive 0 (sent + 1), .receive 1 sent, .receive 1 (sent + 1),
    .readTLC 0, .readTLC 0, .storeBlock 0, .writeName 0, .announce 0, .advance 0,
    .readTLC 1, .readTLC 1, .storeBlock 1, .writeName 1, .announce 1, .advance 1]

def sampleValue : PaxosValue := ⟨"a", "file", "1"⟩

end MarketPeer.Naming
