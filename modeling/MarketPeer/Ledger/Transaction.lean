import MarketPeer.Ledger.State

/-! # Transactions -/

namespace MarketPeer.Ledger

variable {F : Type}

-- The type of a transaction is a plain int, and a message can carry any.
def EXEC_TXN : Int64 := 0
def SET_STORAGE : Int64 := 1
def EXEC_CONTRACT : Int64 := 2
def CREATE_CONTRACT : Int64 := 3

structure Transaction (F : Type) where
  nonce : Int64
  fromAddr : Address
  toAddr : Address
  type : Int64
  code : String
  value : Int64
  storeK : String
  storeV : Value F
  v : String
  r : String
  s : String

structure SignedTransaction (F : Type) where
  txn : Transaction F
  digest : Bytes
  signature : Bytes

def Transaction.json [Float64 F] (t : Transaction F) : Option String := do
  let storeV ← t.storeV.json
  return jsonObject [("Nonce", jsonInt t.nonce), ("From", t.fromAddr.json), ("To", t.toAddr.json),
    ("Type", jsonInt t.type), ("Code", jsonString t.code), ("Value", jsonInt t.value),
    ("StoreK", jsonString t.storeK), ("StoreV", storeV), ("V", jsonString t.v), ("R", jsonString t.r),
    ("S", jsonString t.s)]

def SignedTransaction.json [Float64 F] (t : SignedTransaction F) : Option String := do
  let txn ← t.txn.json
  return jsonObject [("Txn", txn), ("Digest", jsonBytes t.digest), ("Signature", jsonBytes t.signature)]

/-- `hash`: SHA-256 of the JSON, and nil when there is no JSON. -/
def hashJson (env : Env F) (json : Option String) : Bytes :=
  json.elim [] fun s => env.sha256 (stringBytes s)

def Transaction.hash [Float64 F] (env : Env F) (t : Transaction F) : Bytes := hashJson env t.json

/-- The hash of a transaction pointer; nil is marshalled as `null`. -/
def txnHashBytes [Float64 F] (env : Env F) (t : Option (SignedTransaction F)) : Bytes :=
  hashJson env (t.elim (some "null") (·.json))

def txnHash [Float64 F] (env : Env F) (t : Option (SignedTransaction F)) : String :=
  hexEncode (txnHashBytes env t)

end MarketPeer.Ledger
