import MarketPeer.Chord.Lookup

/-!
# Getting a value

`Get` over the nodes of the other modules, with the two callbacks that answer it. All
calls of a node for one key wait on one channel, which is never emptied, so an answer
belongs to no call in particular.
-/

namespace MarketPeer.Chord

variable {N : Nat} {V : Type}

/-! ## Calls and their messages -/

/-- A `ChordGiveKVMessage`. Where and when the value was read is not in the message. -/
structure Answer (N : Nat) (V : Type) where
  owner : Fin N
  value : Option V
  readAt : Nat
deriving DecidableEq

/-- A `ChordAskKVMessage` on its way. -/
structure Asking (N : Nat) where
  source : Fin N
  destination : Fin N
  key : Nat

structure Giving (N : Nat) (V : Type) where
  destination : Fin N
  key : Nat
  answer : Answer N V

inductive Getting (N : Nat) where
  | lookup
  | found (dest : Fin N)
  | wait
deriving DecidableEq

structure Call (N : Nat) where
  node : Fin N
  key : Nat
  calledAt : Nat
  phase : Getting N
deriving DecidableEq

structure Returned (N : Nat) (V : Type) where
  node : Fin N
  key : Nat
  calledAt : Nat
  answer : Answer N V
deriving DecidableEq

/-- `returned` are the answers of the calls that were not errors. Nothing reads `located`, which are
the owners that the lookups of `Get` have given, and `history`, which are the block stores before each
step; its length is the time. -/
structure GetWorld (N : Nat) (V : Type) where
  world : World N V
  acquireKVCh : Fin N → Nat → Option (List (Answer N V))
  calls : List (Call N)
  asks : List (Asking N)
  gives : List (Giving N V)
  returned : List (Returned N V)
  located : List (Fin N × Nat × Fin N)
  history : List (Fin N → Nat → Option V)

namespace GetWorld

def initial (world : World N V) : GetWorld N V where
  world
  acquireKVCh := fun _ _ => none
  calls := []
  asks := []
  gives := []
  returned := []
  located := []
  history := []

def now (w : GetWorld N V) : Nat := w.history.length

def stores (w : GetWorld N V) (n : Fin N) (key : Nat) : Option V := (w.world.nodes n).blockStore key

/-- `blockStore.get`. -/
def read (w : GetWorld N V) (owner : Fin N) (key : Nat) : Answer N V := ⟨owner, w.stores owner key, w.now⟩

def setChannel (w : GetWorld N V) (n : Fin N) (key : Nat) (ch : List (Answer N V)) : GetWorld N V :=
  { w with acquireKVCh := Function.update w.acquireKVCh n (Function.update (w.acquireKVCh n) key (some ch)) }

def channel (w : GetWorld N V) (n : Fin N) (key : Nat) : List (Answer N V) := (w.acquireKVCh n key).getD []

end GetWorld

/-! ## Steps -/

/-- What a call of `Get` does next. The answer of `found` is that of a remote lookup, and `ask` says
whether the message can be sent. -/
inductive GetMove (N : Nat) where
  | found (answer : Fin N)
  | ask (sent : Bool)
  | receive
  | timeout

inductive GetEvent (N : Nat) (V : Type) where
  | chord (e : Event N V)
  | call (n : Fin N) (key : Nat)
  | move (i : Nat) (m : GetMove N)
  | deliverAsk (j : Nat)
  | deliverGive (j : Nat)

variable (cfg : Config N)

/-- `findSuccessor` returns. -/
def GetWorld.locate (w : GetWorld N V) (i : Nat) (c : Call N) (dest : Fin N) : GetWorld N V :=
  { w with
    calls := w.calls.set i { c with phase := .found dest }
    located := w.located ++ [(c.node, c.key, dest)] }

/-- The call returns an answer. -/
def GetWorld.finish (w : GetWorld N V) (i : Nat) (c : Call N) (answer : Answer N V) : GetWorld N V :=
  { w with
    calls := w.calls.eraseIdx i
    returned := w.returned ++ [⟨c.node, c.key, c.calledAt, answer⟩] }

/-- The channel of the key is there from now on, and the owner is asked. -/
def GetWorld.ask (w : GetWorld N V) (i : Nat) (c : Call N) (dest : Fin N) (sent : Bool) : GetWorld N V :=
  let w := w.setChannel c.node c.key (w.channel c.node c.key)
  if sent then
    { w with calls := w.calls.set i { c with phase := .wait }, asks := w.asks ++ [⟨c.node, dest, c.key⟩] }
  else { w with calls := w.calls.eraseIdx i }

def stepGet (w : GetWorld N V) (i : Nat) (c : Call N) : GetMove N → Option (GetWorld N V)
  | .found answer =>
    if c.phase = .lookup then
      match findSuccessor cfg c.node (w.world.nodes c.node) c.key with
      | .found dest => some (w.locate i c dest)
      | .remote _ => some (w.locate i c answer)
      | .error => some { w with calls := w.calls.eraseIdx i }
    else none
  | .ask sent =>
    match c.phase with
    | .found dest =>
      if cfg.hashKey c.node = cfg.hashKey dest then some (w.finish i c (w.read c.node c.key))
      else if (w.world.nodes c.node).chMutexHeld then none
      else some (w.ask i c dest sent)
    | _ => none
  | .receive =>
    match c.phase, w.channel c.node c.key with
    | .wait, kvReplyMsg :: rest => some ((w.setChannel c.node c.key rest).finish i c kvReplyMsg)
    | _, _ => none
  -- The timer of the lookup, or that of `Get` itself.
  | .timeout =>
    match c.phase with
    | .found _ => none
    | _ => some { w with calls := w.calls.eraseIdx i }

def chordAskKVCallback (w : GetWorld N V) (q : Asking N) : GetWorld N V :=
  { w with gives := w.gives ++ [⟨q.source, q.key, w.read q.destination q.key⟩] }

/-- The channel has room for ten answers. Without a channel the callback returns with the lock. -/
def chordGiveKVCallback (w : GetWorld N V) (g : Giving N V) : Option (GetWorld N V) :=
  if (w.world.nodes g.destination).chMutexHeld then none
  else
    match w.acquireKVCh g.destination g.key with
    | some ch => if ch.length < 10 then some (w.setChannel g.destination g.key (ch ++ [g.answer])) else none
    | none =>
      let node := { w.world.nodes g.destination with chMutexHeld := true }
      some { w with world := { w.world with nodes := Function.update w.world.nodes g.destination node } }

/-- The listen daemon of a node whose `transferKey` has not returned takes no packet. -/
def getAct (w : GetWorld N V) : GetEvent N V → Option (GetWorld N V)
  | .chord e => (step cfg w.world e).map fun world => { w with world }
  | .call n key => some { w with calls := w.calls ++ [⟨n, key, w.now, .lookup⟩] }
  | .move i m => w.calls[i]?.bind fun c => stepGet cfg w i c m
  | .deliverAsk j =>
    w.asks[j]?.bind fun q =>
      if (w.world.nodes q.destination).deleting.isSome then none
      else some (chordAskKVCallback { w with asks := w.asks.eraseIdx j } q)
  | .deliverGive j =>
    w.gives[j]?.bind fun g =>
      if (w.world.nodes g.destination).deleting.isSome then none
      else chordGiveKVCallback { w with gives := w.gives.eraseIdx j } g

def getStep (w : GetWorld N V) (e : GetEvent N V) : Option (GetWorld N V) :=
  (getAct cfg w e).map fun w' => { w' with history := w.history ++ [w.stores] }

end MarketPeer.Chord
