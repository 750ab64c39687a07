import Mathlib.Algebra.Group.Nat.Defs
import Mathlib.Data.Fintype.Basic
import Mathlib.Logic.Function.Basic
import MarketPeer.Lib.Runs

/-!
# Chord

The package `chord`: every node with its pointers, its finger table and its part of
the store, and the packets between them. The listen daemon of a node handles one
packet at a time, so a callback is one step; `transferKey` is the exception, because
other routines of the node run between its send and its deletion. A packet that was
sent is delivered at any later time.
-/

namespace MarketPeer.Chord

/-! ## Identifiers -/

/-- `sha1` is the digest of the address of a node, read as a number. From 64 bits on `HashKey`
divides by zero, so that there is no node at all. -/
structure Config (N : Nat) where
  chordBits : Nat
  sha1 : Fin N → Nat

def Config.hashKey {N : Nat} (cfg : Config N) (addr : Fin N) : Nat :=
  cfg.sha1 addr % 2 ^ 64 % 2 ^ cfg.chordBits

def between (id left right : Nat) : Bool :=
  if right > left then id > left && id < right
  else if right < left then id < right || id > left
  else false

def betweenRightInclude (id left right : Nat) : Bool := between id left right || id == right

/-! ## The state of a node -/

/-- Values are taken as `encoding/json` gives them back. -/
inductive Msg (N : Nat) (V : Type) where
  | findSuccessor (source : Fin N) (id : Nat)
  | findSuccessorReply (dest : Fin N) (id : Nat)
  | askPredecessor
  | replyPredecessor (predecessor : Option (Fin N))
  | notify
  | transferKey (data : Nat → Option V)
  | insertKV (key : Nat) (value : V)

structure Packet (N : Nat) (V : Type) where
  source : Fin N
  destination : Fin N
  msg : Msg N V

/-- A `Put` whose `findSuccessor` has returned `dest`. -/
structure Insertion (N : Nat) (V : Type) where
  key : Nat
  value : V
  dest : Fin N

/-- The fields of `Chord` with the routines that run on it; an empty address is `none`.
`stabilizing` is the local `successor` of a `Stabilize` that waits for its reply, `deleting` the
bounds of a `transferKey` that has sent its message, and `chMutexHeld` a `chMutex` that nobody
will unlock. -/
structure Node (N : Nat) (V : Type) where
  successor : Option (Fin N)
  predecessor : Option (Fin N)
  fingerTable : List (Option (Fin N))
  findSuccessorCh : Nat → Option (List (Fin N))
  askPredecessorCh : List (Option (Fin N))
  chMutexHeld : Bool
  blockStore : Nat → Option V
  stabilizing : Option (Fin N)
  deleting : Option (Nat × Nat)
  putting : List (Insertion N V)

def NewChord {N : Nat} (cfg : Config N) (V : Type) : Node N V where
  successor := none
  predecessor := none
  fingerTable := List.replicate cfg.chordBits none
  findSuccessorCh := fun _ => none
  askPredecessorCh := []
  chMutexHeld := false
  blockStore := fun _ => none
  stabilizing := none
  deleting := none
  putting := []

/-- What a step does: the node after it and the messages it sends. -/
structure Effect (N : Nat) (V : Type) where
  node : Node N V
  sends : List (Fin N × Msg N V) := []

variable {N : Nat} {V : Type}

/-! ## Lookups -/

/-- `FingerTable.load`; `none` is its error. -/
def load (fingerTable : List (Option (Fin N))) (loc : Nat) : Option (Option (Fin N)) := fingerTable[loc]?

/-- The loop of `closestPrecedingNode` over the entries below `i`, from the last to the first. -/
def closestPrecedingNode (cfg : Config N) (self : Fin N) (fingerTable : List (Option (Fin N)))
    (id : Nat) : Nat → Option (Fin N)
  | 0 => some self
  | i + 1 =>
    match load fingerTable i with
    | none => none
    | some none => closestPrecedingNode cfg self fingerTable id i
    | some (some nodeAddr) =>
      if between (cfg.hashKey nodeAddr) (cfg.hashKey self) id then some nodeAddr
      else closestPrecedingNode cfg self fingerTable id i

/-- What `findSuccessor` comes to on its own node: an answer, or a node to ask. -/
inductive Lookup (N : Nat) where
  | found (addr : Fin N)
  | remote (nStar : Fin N)
  | error
  deriving DecidableEq

/-- Case 0 of `findSuccessor` and of `ChordFindSuccessorCallback`. -/
def ownsKey (cfg : Config N) (self : Fin N) (node : Node N V) (id : Nat) : Bool :=
  id == cfg.hashKey self || node.predecessor.any fun p => betweenRightInclude id (cfg.hashKey p) (cfg.hashKey self)

def findSuccessor (cfg : Config N) (self : Fin N) (node : Node N V) (id : Nat) : Lookup N :=
  if ownsKey cfg self node id then .found self
  else
    match node.successor with
    | none => .found self
    | some successor =>
      if betweenRightInclude id (cfg.hashKey self) (cfg.hashKey successor) then .found successor
      else
        match closestPrecedingNode cfg self node.fingerTable id cfg.chordBits with
        | none => .error
        | some nStar => if nStar = self then .found successor else .remote nStar

/-- `FindSuccessorRemote` up to its wait. -/
def findSuccessorRemote (self : Fin N) (node : Node N V) (dest : Fin N) (id : Nat) : Option (Effect N V) :=
  if node.chMutexHeld then none
  else some
    { node := { node with
        findSuccessorCh := Function.update node.findSuccessorCh id (some ((node.findSuccessorCh id).getD [])) }
      sends := [(dest, .findSuccessor self id)] }

/-- Case 0 does not return: the node goes on to the other cases. -/
def chordFindSuccessorCallback (cfg : Config N) (self : Fin N) (node : Node N V) (source : Fin N)
    (id : Nat) : List (Fin N × Msg N V) :=
  if node.successor = some self then []
  else
    (if ownsKey cfg self node id then [(source, .findSuccessorReply self id)] else []) ++
    match node.successor with
    | none => [(source, .findSuccessorReply self id)]
    | some successor =>
      if betweenRightInclude id (cfg.hashKey self) (cfg.hashKey successor) then
        [(source, .findSuccessorReply successor id)]
      else
        match closestPrecedingNode cfg self node.fingerTable id cfg.chordBits with
        | none => []
        | some nStar =>
          if nStar = self then [(source, .findSuccessorReply successor id)]
          else [(nStar, .findSuccessor source id)]

/-- The channel has room for ten replies. Without a channel the callback returns with the lock. -/
def chordFindSuccessorReplyCallback (node : Node N V) (dest : Fin N) (id : Nat) : Option (Node N V) :=
  if node.chMutexHeld then none
  else
    match node.findSuccessorCh id with
    | some ch =>
      if ch.length < 10 then
        some { node with findSuccessorCh := Function.update node.findSuccessorCh id (some (ch ++ [dest])) }
      else none
    | none => some { node with chMutexHeld := true }

/-! ## Stabilisation -/

/-- The end of `Join`, with the answer of the lookup. -/
def join (self : Fin N) (node : Node N V) (successor : Fin N) : Node N V :=
  if successor ≠ self then { node with successor := some successor } else node

def init (node : Node N V) (member : Fin N) : Node N V :=
  { node with
    successor := node.successor <|> some member
    predecessor := node.predecessor <|> some member }

/-- `Stabilize` up to its wait. -/
def stabilize (node : Node N V) : Option (Effect N V) :=
  match node.stabilizing, node.successor with
  | some _, _ => none
  | none, none => some { node }
  | none, some successor =>
    some { node := { node with stabilizing := some successor }, sends := [(successor, .askPredecessor)] }

/-- The rest of `Stabilize`, with the reply that came in. -/
def refresh (cfg : Config N) (self : Fin N) (node : Node N V) (successor : Fin N)
    (reply : Option (Fin N)) : Effect N V :=
  let node :=
    match reply with
    | none => node
    | some p =>
      if between (cfg.hashKey p) (cfg.hashKey self) (cfg.hashKey successor) then { node with successor := some p }
      else node
  { node, sends := node.successor.toList.map (·, .notify) }

def stabilizeResume (cfg : Config N) (self : Fin N) (node : Node N V) : Option (Effect N V) :=
  match node.stabilizing, node.askPredecessorCh with
  | some successor, reply :: rest =>
    some (refresh cfg self { node with stabilizing := none, askPredecessorCh := rest } successor reply)
  | _, _ => none

def chordAskPredecessorCallback (node : Node N V) (source : Fin N) : Effect N V where
  node
  sends := [(source, .replyPredecessor node.predecessor)]

def chordReplyPredecessorCallback (node : Node N V) (predecessor : Option (Fin N)) : Option (Node N V) :=
  if node.askPredecessorCh.length < 1 then
    some { node with askPredecessorCh := node.askPredecessorCh ++ [predecessor] }
  else none

/-! ## The store -/

def findBetweenRightInclude (data : Nat → Option V) (begin_ end_ : Nat) : Nat → Option V :=
  fun key => if betweenRightInclude key begin_ end_ then data key else none

def deleteBetweenRightInclude (data : Nat → Option V) (begin_ end_ : Nat) : Nat → Option V :=
  fun key => if (findBetweenRightInclude data begin_ end_ key).isSome then none else data key

/-- `transferKey` up to its deletion. -/
def transferKey (node : Node N V) (dest : Fin N) (begin_ end_ : Nat) : Effect N V where
  node := { node with deleting := some (begin_, end_) }
  sends := [(dest, .transferKey (findBetweenRightInclude node.blockStore begin_ end_))]

def endTransfer (node : Node N V) : Option (Node N V) :=
  node.deleting.map fun (begin_, end_) =>
    { node with deleting := none, blockStore := deleteBetweenRightInclude node.blockStore begin_ end_ }

def chordNotifyCallback (cfg : Config N) (self : Fin N) (node : Node N V) (nStar : Fin N) : Effect N V :=
  match node.predecessor with
  | none => { node := { node with predecessor := some nStar } }
  | some predecessor =>
    if between (cfg.hashKey nStar) (cfg.hashKey predecessor) (cfg.hashKey self) then
      transferKey { node with predecessor := some nStar } nStar (cfg.hashKey predecessor) (cfg.hashKey nStar)
    else { node }

def chordTransferKeyCallback (node : Node N V) (data : Nat → Option V) : Node N V :=
  { node with blockStore := fun key => data key <|> node.blockStore key }

def chordInsertKVCallback (node : Node N V) (key : Nat) (value : V) : Node N V :=
  { node with blockStore := Function.update node.blockStore key (some value) }

/-- `Put` up to the answer of its `findSuccessor`; `answer` is what a remote lookup returns. -/
def put (cfg : Config N) (self : Fin N) (node : Node N V) (key : Nat) (value : V) (answer : Fin N) :
    Node N V :=
  match findSuccessor cfg self node key with
  | .found dest => { node with putting := node.putting ++ [⟨key, value, dest⟩] }
  | .remote _ => { node with putting := node.putting ++ [⟨key, value, answer⟩] }
  | .error => node

/-- The rest of `Put`. -/
def finishPut (cfg : Config N) (self : Fin N) (node : Node N V) (i : Nat) : Option (Effect N V) :=
  (node.putting[i]?).map fun p =>
    let node := { node with putting := node.putting.eraseIdx i }
    if cfg.hashKey self = cfg.hashKey p.dest then { node := chordInsertKVCallback node p.key p.value }
    else { node, sends := [(p.dest, .insertKV p.key p.value)] }

/-! ## The system -/

/-- The nodes, the packets on their way in the order they were sent, and for each key the value
of the last `Put` that was carried out, which nothing reads. -/
structure World (N : Nat) (V : Type) where
  nodes : Fin N → Node N V
  net : List (Packet N V)
  written : Nat → Option V

/-- The nodes `a` and `b` have completed `Init` with each other. -/
def World.initial (cfg : Config N) (V : Type) (a b : Fin N) : World N V where
  nodes := Function.update (Function.update (fun _ => NewChord cfg V) a (init (NewChord cfg V) b)) b
    (init (NewChord cfg V) a)
  net := []
  written := fun _ => none

def World.Joined (w : World N V) (n : Fin N) : Prop := (w.nodes n).successor ≠ none

instance (w : World N V) (n : Fin N) : Decidable (w.Joined n) := inferInstanceAs (Decidable (¬ _))

inductive Event (N : Nat) (V : Type) where
  | request (n dest : Fin N) (id : Nat)
  | join (n member successor : Fin N)
  | stabilize (n : Fin N)
  | resume (n : Fin N)
  | put (n : Fin N) (key : Nat) (value : V) (answer : Fin N)
  | finishPut (n : Fin N) (i : Nat)
  | endTransfer (n : Fin N)
  | deliver (k : Nat)

def World.commit (w : World N V) (n : Fin N) (e : Effect N V) : World N V :=
  { w with
    nodes := Function.update w.nodes n e.node
    net := w.net ++ e.sends.map fun s => ⟨n, s.1, s.2⟩ }

/-- The callback of a message. -/
def processPacket (cfg : Config N) (self : Fin N) (node : Node N V) (source : Fin N) :
    Msg N V → Option (Effect N V)
  | .findSuccessor origin id => some { node, sends := chordFindSuccessorCallback cfg self node origin id }
  | .findSuccessorReply dest id => (chordFindSuccessorReplyCallback node dest id).map fun node => { node }
  | .askPredecessor => some (chordAskPredecessorCallback node source)
  | .replyPredecessor p => (chordReplyPredecessorCallback node p).map fun node => { node }
  | .notify => some (chordNotifyCallback cfg self node source)
  | .transferKey data => some { node := chordTransferKeyCallback node data }
  | .insertKV key value => some { node := chordInsertKVCallback node key value }

/-- The listen daemon of a node whose `transferKey` has not returned takes no packet. -/
def deliver (cfg : Config N) (w : World N V) (k : Nat) : Option (World N V) :=
  (w.net[k]?).bind fun pkt =>
    let node := w.nodes pkt.destination
    if node.deleting.isSome then none
    else (processPacket cfg pkt.destination node pkt.source pkt.msg).map fun e =>
      { w with net := w.net.eraseIdx k }.commit pkt.destination e

/-- The value that the end of a `Put` writes. -/
def World.record (w : World N V) (n : Fin N) (i : Nat) : World N V :=
  match (w.nodes n).putting[i]? with
  | none => w
  | some p => { w with written := Function.update w.written p.key (some p.value) }

def step (cfg : Config N) (w : World N V) : Event N V → Option (World N V)
  | .request n dest id => (findSuccessorRemote n (w.nodes n) dest id).map (w.commit n)
  | .join n member successor =>
    if ¬ w.Joined n ∧ w.Joined member ∧ w.Joined successor then
      some (w.commit n { node := join n (w.nodes n) successor })
    else none
  | .stabilize n => (stabilize (w.nodes n)).map (w.commit n)
  | .resume n => (stabilizeResume cfg n (w.nodes n)).map (w.commit n)
  | .put n key value answer => some (w.commit n { node := put cfg n (w.nodes n) key value answer })
  | .finishPut n i => (finishPut cfg n (w.nodes n) i).map ((w.record n i).commit n)
  | .endTransfer n => (endTransfer (w.nodes n)).map fun node => w.commit n { node }
  | .deliver k => deliver cfg w k

end MarketPeer.Chord
