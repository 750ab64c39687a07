import MarketPeer.Ledger.BlockChain
import MarketPeer.Ledger.Execute

/-!
# The two loops of a miner

`verifyAndExecuteTxnLoop` makes a block out of offered transactions, and
`verifyBlockd` decides on a received one. Both are here for one round: the
transactions read until a block is full, and one block message.
-/

namespace MarketPeer.Ledger

variable {F : Type}

/-! ## Proof of work -/

def prefixZeros : Bytes → Nat → Res F Bool
  | _, 0 => .ok true
  | [], _ + 1 => .panic outOfRange
  | b :: bs, n + 1 => if b ≠ 0 then .ok false else prefixZeros bs n

/-- The loop does not run at all for a negative number. -/
def satisfyPrefixZeros (hash : Bytes) (zeros : Int64) : Res F Bool := prefixZeros hash zeros.toInt.toNat

def difficultyToZeros (difficulty : Int64) : Int64 := difficulty

def powValid (env : Env F) (b : Block F) : Res F Bool :=
  satisfyPrefixZeros (b.hashBytes env) (difficultyToZeros b.header.difficulty)

variable [Float64 F]

/-- `blockPoW` from a start nonce; `none` when it needs more rounds. -/
def blockPoW (env : Env F) (bb : BlockBuilder F) : Nat → UInt32 → Option (Res F (Block F))
  | 0, _ => none
  | fuel + 1, nonce =>
    match BlockBuilder.build env { bb with nonce } with
    | .ok b =>
      match (powValid env b : Res F Bool) with
      | .ok true => some (.ok b)
      | .ok false => blockPoW env bb fuel (nonce + 1)
      | .err e => some (.err e)
      | .panic why => some (.panic why)
    | r => some r

/-! ## Mining a block -/

def offer (env : Env F) (m : Miner) (txn : SignedTransaction F) (w : World F) : Res F Unit × World F :=
  andThen (verifyTxn env m txn w) w fun _ => executeTxn env txn w

/-- What the loop does not read from the miner: the clock, the random nonce and how long the
nonce search may go on. -/
structure Mining where
  now : Int64
  nonce : UInt32
  fuel : Nat

/-- `verifyAndExecuteTxnLoop` on the transactions that come out of `txnCh`. `none` when the
channel runs empty, when a transaction panics, or while the nonce search is still going. -/
def verifyAndExecuteTxnLoop (env : Env F) (m : Miner) (mining : Mining) (lastBlock : Block F)
    (verifiedTxns : List (SignedTransaction F)) :
    List (SignedTransaction F) → World F → Option (Res F (Block F))
  | [], _ => none
  | txn :: rest, w =>
    match offer env m txn w with
    | (.panic _, _) => none
    | (.err _, w') => verifyAndExecuteTxnLoop env m mining lastBlock verifiedTxns rest w'
    | (.ok _, w') =>
      let verifiedTxns := verifiedTxns ++ [txn]
      if (verifiedTxns.length : Int) < m.blocktxns.toInt then
        verifyAndExecuteTxnLoop env m mining lastBlock verifiedTxns rest w'
      else
        let bb := { lastBlock.nextBlockBuilder env mining.now m.accountAddr with
          state := w'
          transactions := verifiedTxns.map some }
        blockPoW env bb mining.fuel mining.nonce

/-! ## Receiving a block -/

/-- A block as it comes out of the decoder: every account is a generic JSON value, and the
state is nil when the message says so. -/
structure BlockMessage (F : Type) where
  sender : String
  header : BlockHeader
  state : Option (SimpleKV (Value F))
  transactions : List (Option (SignedTransaction F))

def asFloat : Value F → Res F F
  | .float f => .ok f
  | _ => .panic "interface conversion: interface is not float64"

def asString : Value F → Res F String
  | .str s => .ok s
  | _ => .panic "interface conversion: interface is not string"

def asObject : Value F → Res F (List (String × Value F))
  | .obj fields => .ok fields
  | _ => .panic "interface is not map"

/-- One account of the message, field by field; any other shape panics. -/
def rebuildAccount (v : Value F) : Res F (State F) := do
  let fields ← asObject v
  let nonce ← asFloat (Value.field fields "Nonce")
  let balance ← asFloat (Value.field fields "Balance")
  let code ← asString (Value.field fields "Code")
  let root ← asObject (Value.field fields "StorageRoot")
  let internal ← asObject (Value.field root "Internal")
  return ⟨Float64.toUint nonce, Float64.toUint balance,
    internal.foldl (fun kv e => kv.put e.1 e.2) .new, code⟩

def rebuildState (raw : SimpleKV (Value F)) : Res F (World F) :=
  raw.internal.toList.foldlM
    (fun accounts e => do
      let s ← rebuildAccount e.2
      return accounts.put e.1 (.account s))
    .new

/-- `BlockMsgCallback`: the block that goes to `blockCh`. An attacker drops blocks of others. -/
def blockMsgCallback (env : Env F) (m : Miner) (source : String) (msg : BlockMessage F) :
    Res F (Option (Block F)) :=
  if m.attacker ∧ source ≠ m.addr then .ok none
  else
    match msg.state with
    | none => .panic nilDeref
    | some raw => do
      let accounts ← rebuildState raw
      let bb : BlockBuilder F := { transactions := msg.transactions }
      let b ← BlockBuilder.build env { bb.setHeader msg.header with state := accounts }
      return some b

/-- The replay of `verifyBlockd`: errors are logged and skipped, their effects stay. -/
def replay (env : Env F) : World F → List (Option (SignedTransaction F)) → Res F (World F)
  | w, [] => .ok w
  | _, none :: _ => .panic nilDeref
  | w, some txn :: rest =>
    match executeTxn env txn w with
    | (.panic why, _) => .panic why
    | (_, w') => replay env w' rest

/-- How a round of `verifyBlockd` ends. `catchUp` is where it starts to ask for blocks. -/
inductive Verdict (F : Type) where
  | powInvalid
  | catchUp (e : GoError F)
  | refused (e : GoError F)
  | stateDiffers
  | notAppended (e : GoError F)
  | appended
  | crashed (why : String)

def Verdict.isAppended : Verdict F → Bool
  | .appended => true
  | _ => false

/-- One round of `verifyBlockd`, up to the catch-up path. -/
def verifyBlock (env : Env F) (bc : BlockChain F) (newBlock : Block F) : Verdict F × BlockChain F :=
  match (powValid env newBlock : Res F Bool) with
  | .ok true =>
    match bc.tryAppend env newBlock with
    | .ok parent =>
      match (do World.hash env (← replay env parent.state newBlock.transactions)) with
      | .ok h =>
        if h ≠ newBlock.header.stateHash then (.stateDiffers, bc)
        else
          match bc.append env newBlock with
          | (.ok _, bc') => (.appended, bc')
          | (.err e, bc') => (.notAppended e, bc')
          | (.panic why, bc') => (.crashed why, bc')
      | .err e => (.refused e, bc)
      | .panic why => (.crashed why, bc)
    | .err e => if e.is .blockTooNew then (.catchUp e, bc) else (.refused e, bc)
    | .panic why => (.crashed why, bc)
  | .ok false => (.powInvalid, bc)
  | .err e => (.refused e, bc)
  | .panic why => (.crashed why, bc)

end MarketPeer.Ledger
