import MarketPeer.Ledger.Transaction

/-! # Blocks and how they are built -/

namespace MarketPeer.Ledger

variable {F : Type}

def DUMMY_PARENT_HASH : String := String.ofList (List.replicate 64 '0')
def GENESIS_DIFFICULTY : Int64 := 2
def GENESIS_NONCE : UInt32 := 0
def GENESIS_BENEFICIARY : Address := Address.new (Vector.replicate 8 0)

structure BlockHeader where
  parentHash : String
  nonce : UInt32
  timestamp : Int64
  beneficiary : Address
  difficulty : Int64
  number : Int64
  stateHash : String
  transactionsHash : String
  receiptsHash : String
  deriving DecidableEq

/-- `BlockHeader.hash`. The difficulty is not part of it. -/
def BlockHeader.hash (env : Env F) (h : BlockHeader) : Bytes :=
  env.sha256 (stringBytes h.parentHash ++ stringBytes (toString h.nonce.toNat) ++
    stringBytes (toString h.timestamp.toInt) ++ stringBytes h.beneficiary.string ++
    stringBytes (toString h.number.toInt) ++ stringBytes h.stateHash ++
    stringBytes h.transactionsHash ++ stringBytes h.receiptsHash)

/-- A transaction of a block is a pointer, nil when a message says so. -/
structure Block (F : Type) where
  header : BlockHeader
  state : World F
  transactions : List (Option (SignedTransaction F))
  receipts : SimpleKV (Value F)

namespace Block

def hashBytes (env : Env F) (b : Block F) : Bytes :=
  env.sha256 (b.header.hash env ++ stringBytes b.header.stateHash ++
    stringBytes b.header.transactionsHash ++ stringBytes b.header.receiptsHash)

def hash (env : Env F) (b : Block F) : String := hexEncode (b.hashBytes env)

/-- `HasTxn`, for the handle of a transaction: its hash. -/
def hasTxn [Float64 F] (env : Env F) (b : Block F) (handle : String) : Bool :=
  b.transactions.any fun t => txnHash env t = handle

end Block

structure BlockBuilder (F : Type) where
  parentHash : String := ""
  nonce : UInt32 := 0
  timestamp : Int64 := 0
  beneficiary : Address := ⟨Vector.replicate 8 0, ""⟩
  difficulty : Int64 := 0
  number : Int64 := 0
  state : World F := .new
  transactions : List (Option (SignedTransaction F)) := []
  receipts : SimpleKV (Value F) := .new

namespace BlockBuilder

/-- `SetHeader` copies the header fields that are not hashes of the body. -/
def setHeader (bb : BlockBuilder F) (h : BlockHeader) : BlockBuilder F :=
  { bb with
    parentHash := h.parentHash
    nonce := h.nonce
    timestamp := h.timestamp
    beneficiary := h.beneficiary
    difficulty := h.difficulty
    number := h.number }

def build [Float64 F] (env : Env F) (bb : BlockBuilder F) : Res F (Block F) := do
  let stateHash ← World.hash env bb.state
  let receiptsHash ← bb.receipts.hash env Value.json
  let header : BlockHeader :=
    { parentHash := bb.parentHash
      nonce := bb.nonce
      timestamp := bb.timestamp
      beneficiary := bb.beneficiary
      difficulty := bb.difficulty
      number := bb.number
      stateHash
      transactionsHash := hexEncode (env.sha256 (bb.transactions.flatMap (txnHashBytes env)))
      receiptsHash }
  return ⟨header, bb.state, bb.transactions, bb.receipts⟩

end BlockBuilder

def Block.nextBlockBuilder (env : Env F) (b : Block F) (now : Int64) (miner : Address) :
    BlockBuilder F :=
  { parentHash := b.hash env
    difficulty := b.header.difficulty
    timestamp := now
    number := b.header.number + 1
    beneficiary := miner }

/-- `Build` keeps the body and puts the hash of the state into the header. -/
theorem build_eq_ok [Float64 F] (env : Env F) (bb : BlockBuilder F) (b : Block F)
    (h : bb.build env = .ok b) :
    World.hash env bb.state = .ok b.header.stateHash ∧ b.state = bb.state ∧
      b.transactions = bb.transactions := by
  simp only [BlockBuilder.build, Outcome.bind_eq_ok, Outcome.pure_eq, Outcome.ok.injEq] at h
  obtain ⟨stateHash, hstate, receiptsHash, -, rfl⟩ := h
  exact ⟨hstate, rfl, rfl⟩

end MarketPeer.Ledger
