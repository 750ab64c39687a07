import MarketPeer.Ledger.Transition
import MarketPeer.Ledger.Wire

/-!
# The two daemons of a miner

`verifyAndExecuteTxnd` and `verifyBlockd` side by side, with the two channels between
them and the callbacks. A step is what one of them does between two points where
another can come in; a send on a full channel waits.
-/

namespace MarketPeer.Ledger

variable {F : Type}

/-! ## The miner -/

/-- Where `verifyAndExecuteTxnd` is: before `LatestWorldState`, in `verifyAndExecuteTxnLoop`, before
`TryAppend` of the block it mined, or putting the transactions of a stale block back. -/
inductive TxnLoop (F : Type) where
  | top
  | collecting (lastBlock : Block F) (verifiedTxns : List (SignedTransaction F)) (worldState : World F)
  | finalized (newBlock : Block F)
  | requeueing (txns : List (Option (SignedTransaction F)))

/-- `broadcasting` are own blocks that `Broadcast` has still to process locally, and `verifying` is the
block that `verifyBlockd` has taken; in the channel and there each has the `From` of its message. `mined`
records the transactions of all blocks that the loop returned. -/
structure Daemons (F : Type) where
  history : ChainHistory F
  txnCh : List (Option (SignedTransaction F))
  blockCh : List (String × Block F)
  loop : TxnLoop F
  broadcasting : List (Block F)
  verifying : Option (String × Block F)
  mined : List (SignedTransaction F)

def chanSize : Nat := 100

/-- A miner that was started on the chain it is given. -/
def Daemons.start (bootstrap : ChainHistory F) : Daemons F := ⟨bootstrap, [], [], .top, [], none, []⟩

inductive MinerEvent (F : Type) where
  | walletTxn (source : String) (txn : SignedTransaction F)
  | latestWorldState
  | readTxn (mining : Mining)
  | tryAppend
  | requeue
  | ownBlock (i : Nat)
  | peerBlock (source : String) (msg : BlockMessage F)
  | takeBlock
  | verifyBlock

variable [Float64 F]

/-! ## The transaction daemon -/

/-- One round of the loop of `verifyAndExecuteTxnLoop`: a transaction from the channel. -/
def readTxn (env : Env F) (m : Miner) (mining : Mining) (s : Daemons F) : Option (Daemons F) :=
  match s.loop, s.txnCh with
  | .collecting lastBlock verifiedTxns w, some txn :: rest =>
    match offer env m txn w with
    | (.panic _, _) => none
    | (.err _, w') => some { s with txnCh := rest, loop := .collecting lastBlock verifiedTxns w' }
    | (.ok _, w') =>
      let verifiedTxns := verifiedTxns ++ [txn]
      if (verifiedTxns.length : Int) < m.blocktxns.toInt then
        some { s with txnCh := rest, loop := .collecting lastBlock verifiedTxns w' }
      else
        let bb := { lastBlock.nextBlockBuilder env mining.now m.accountAddr with
          state := w'
          transactions := verifiedTxns.map some }
        match blockPoW env bb mining.fuel mining.nonce with
        | some (.ok b) => some { s with
            txnCh := rest
            loop := .finalized b
            mined := s.mined ++ verifiedTxns }
        | _ => none
  | _, _ => none

/-- `verifyAndExecuteTxnd` with the block it has mined: a stale one goes back, transaction by
transaction. -/
def checkMined (env : Env F) (s : Daemons F) : Option (Daemons F) :=
  match s.loop with
  | .finalized b =>
    match s.history.bc.tryAppend env b with
    | .ok _ => some { s with loop := .top, broadcasting := s.broadcasting ++ [b] }
    | .err _ => some { s with loop := .requeueing b.transactions }
    | .panic _ => none
  | _ => none

def requeue (s : Daemons F) : Option (Daemons F) :=
  match s.loop with
  | .requeueing [] => some { s with loop := .top }
  | .requeueing (txn :: rest) =>
    if s.txnCh.length < chanSize then some { s with txnCh := s.txnCh ++ [txn], loop := .requeueing rest }
    else none
  | _ => none

/-! ## The callbacks -/

/-- The message comes out of the decoder, as every message does. -/
def walletTxnMsgCallback (m : Miner) (source : String) (txn : SignedTransaction F) (s : Daemons F) :
    Option (Daemons F) :=
  if m.attacker ∧ source ≠ m.addr then some s
  else if s.txnCh.length < chanSize then some { s with txnCh := s.txnCh ++ [some txn.wire] }
  else none

/-- `BlockMsgCallback` up to the send on `blockCh`. `ProcessPacket` recovers a panic, and the block is gone. -/
def sendBlock (sender : String) (r : Res F (Option (Block F))) (s : Daemons F) : Option (Daemons F) :=
  match r with
  | .panic _ => some s
  | .err _ => some s
  | .ok none => some s
  | .ok (some b) =>
    if s.blockCh.length < chanSize then some { s with blockCh := s.blockCh ++ [(sender, b)] } else none

/-- An own block on its way back: encoded, decoded, and handed to the callback. -/
def receiveOwn (env : Env F) (m : Miner) (b : Block F) : Res F (Option (Block F)) := do
  let msg ← b.message m.addr
  blockMsgCallback env m m.addr msg

/-! ## The block daemon -/

/-- One round of `verifyBlockd`. Nothing else writes the chain, so it is one step. It stops where the
catch-up begins. -/
def verifyTaken (env : Env F) (s : Daemons F) : Option (Daemons F) :=
  match s.verifying with
  | none => none
  | some (_, b) =>
    match verifyBlock env s.history.bc b with
    | (.crashed _, _) => none
    | (.catchUp _, _) => none
    | (.appended, bc') => some { s with verifying := none, history := ⟨bc', b :: s.history.blocks⟩ }
    | (_, bc') => some { s with verifying := none, history := ⟨bc', s.history.blocks⟩ }

def daemonStep (env : Env F) (m : Miner) (s : Daemons F) : MinerEvent F → Option (Daemons F)
  | .walletTxn source txn => walletTxnMsgCallback m source txn s
  | .latestWorldState =>
    match s.loop, s.history.bc.latestWorldState with
    | .top, .ok (w, last) => some { s with loop := .collecting last [] w }
    | _, _ => none
  | .readTxn mining => readTxn env m mining s
  | .tryAppend => checkMined env s
  | .requeue => requeue s
  | .ownBlock i =>
    match s.broadcasting[i]? with
    | some b => sendBlock m.addr (receiveOwn env m b) { s with broadcasting := s.broadcasting.eraseIdx i }
    | none => none
  | .peerBlock source msg => sendBlock msg.sender (blockMsgCallback env m source msg) s
  | .takeBlock =>
    match s.verifying, s.blockCh with
    | none, msg :: rest => some { s with blockCh := rest, verifying := some msg }
    | _, _ => none
  | .verifyBlock => verifyTaken env s

end MarketPeer.Ledger
