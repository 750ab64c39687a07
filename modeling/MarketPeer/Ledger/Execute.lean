import MarketPeer.Ledger.Transaction
import MarketPeer.Contracts.Eval
import MarketPeer.Contracts.Marshal

/-!
# Verifying and executing a transaction

`verify.go` and `execute.go` of the miner. Executing returns the error next to
the world state as it was left: an error does not undo what came before it.
-/

namespace MarketPeer.Ledger

open MarketPeer.Contracts

variable {F α β : Type}

structure Miner where
  addr : String
  accountAddr : Address
  blocktxns : Int64
  attacker : Bool

def wrapErr (format : String) : Res F α → Res F α
  | .err e => .err (.wrap format [] e)
  | r => r

/-- `fmt.Errorf("...", err)` with no verb for the error, which is then lost to `errors.Is`. -/
def hideErr (format : String) : Res F α → Res F α
  | .err _ => .err (.errorf format [])
  | r => r

def andThen (r : Res F α) (w : World F) (k : α → Res F Unit × World F) : Res F Unit × World F :=
  match r with
  | .ok a => k a
  | .err e => (.err e, w)
  | .panic why => (.panic why, w)

/-! ## Verification -/

/-- Check 1 of `doVerifyTxn`: the signature, and that it recovers to the sender. -/
def verifySender (env : Env F) (txn : SignedTransaction F) : Res F Address := do
  let publicKey ← env.ecrecover txn.digest txn.signature
  if txn.signature = [] then .panic sliceBounds
  else if !env.verifySignature publicKey txn.digest txn.signature.dropLast then
    .err (.errorf "signature is invalid" [])
  else
    let addr := Address.newFromPublicKey env publicKey
    if !addr.equal txn.txn.fromAddr then
      .err (.errorf "txn.from=%s not consistent with pubKey derived addr=%s"
        [.str txn.txn.fromAddr.string, .str addr.string])
    else .ok addr

def verifyAccount (txn : SignedTransaction F) (s : State F) : Res F Unit :=
  if txn.txn.nonce ≠ s.nonce.toInt64 then
    .err (.errorf "txn.nonce=%d not equal to account nonce=%d" [.int txn.txn.nonce, .uint s.nonce])
  else if s.balance.toInt64 < txn.txn.value then
    .err (.errorf "account balance=%d, cannot cover value=%d transfer"
      [.uint s.balance, .int txn.txn.value])
  else .ok ()

def doVerifyTxn (env : Env F) (m : Miner) (txn : SignedTransaction F) (w : World F) : Res F Unit :=
  if m.attacker then .ok ()
  else do
    let addr ← verifySender env txn
    match w.get? addr.string with
    | none => .err (.errorf "addr=%s not in world state" [.str addr.string])
    | some (.other v) =>
      .err (.errorf "corrputed world state, value=%v cannot be casted to account.State" [.value v])
    | some (.account s) => verifyAccount txn s

def verifyTxn (env : Env F) (m : Miner) (txn : SignedTransaction F) (w : World F) : Res F Unit :=
  wrapErr "verify error: %w" (doVerifyTxn env m txn w)

/-! ## Storage and value transfers -/

def retrieveState (address : String) (w : World F) : Res F (State F) :=
  w.lookup address "address dont exist: %w" "state is corrupted: %v"

def State.addNonce (s : State F) : State F := { s with nonce := s.nonce + 1 }
def State.debit (amount : UInt64) (s : State F) : State F := { s with balance := s.balance - amount }
def State.credit (amount : UInt64) (s : State F) : State F := { s with balance := s.balance + amount }
def State.store (key : String) (value : Value F) (s : State F) : State F :=
  { s with storageRoot := s.storageRoot.put key value }

def setStorage (txn : SignedTransaction F) (w : World F) : Res F Unit × World F :=
  let sender := txn.txn.fromAddr.string
  andThen (w.lookup sender "from address dont exist: %w" "from state is corrupted: %v") w fun _ =>
    (.ok (), w.update sender fun s => s.addNonce.store txn.txn.storeK txn.txn.storeV)

/-- `uint(txn.Txn.Value)` keeps the bits of a negative value. -/
def doValueTransfer (txn : SignedTransaction F) (w : World F) : Res F Unit × World F :=
  let sender := txn.txn.fromAddr.string
  let receiver := txn.txn.toAddr.string
  let amount := txn.txn.value.toUInt64
  andThen (w.lookup sender "from address dont exist: %w" "from state is corrupted: %v") w fun _ =>
  andThen (w.lookup receiver "to address dont exist: %w" "to state is corrupted: %v") w fun _ =>
    let w := w.update sender fun s => (s.debit amount).addNonce
    (.ok (), w.update receiver (State.credit amount))

/-! ## Contracts -/

variable [Float64 F]

def numericToFloat : Value F → Option F
  | .float f => some f
  | .int i => some (Float64.ofInt i)
  | _ => none

def param (a : Action F) (i : Nat) : Res F (Literal F) :=
  match a.params[i]? with
  | none => .panic outOfRange
  | some none => .panic nilDeref
  | some (some l) => .ok l

def numberParam (a : Action F) (i : Nat) : Res F F := do
  let l ← param a i
  l.number.elim (.panic nilDeref) .ok

def stringParam (a : Action F) (i : Nat) : Res F String := do
  let l ← param a i
  l.string.elim (.panic nilDeref) .ok

/-- A `transfer`: the buyer is the proposer, the seller the acceptor. -/
def runTransfer (proposer acceptor : String) (action : Action F) (w : World F) :
    Res F Unit × World F :=
  andThen (numberParam action 0) w fun number =>
    let amount := Float64.toUint number
    if action.role = "buyer" then
      (.ok (), (w.update proposer (State.debit amount)).update acceptor (State.credit amount))
    else if action.role = "seller" then
      (.ok (), (w.update proposer (State.credit amount)).update acceptor (State.debit amount))
    else (.ok (), w)

/-- The first half of a `send`: the sender must hold enough, and gives it up. -/
def sendOut (sender product : String) (amount : F) (castFormat : String) (w : World F) :
    Res F (World F) :=
  match (w.account? sender).bind (·.storageRoot.get? product) with
  | none => .err (.sentinel .keyNotFound)
  | some held =>
    match numericToFloat held with
    | none => .err (.errorf castFormat [.value held])
    | some h =>
      if Float64.lt h amount then .err (.errorf "do not have enough product: %s" [.str product])
      else .ok (w.update sender (State.store product (.float (Float64.sub h amount))))

/-- The second half: the receiver gets it. A holding that is no number is an error, after the
sender has already given the product up. -/
def sendIn (receiver product : String) (amount : F) (w : World F) : Res F (World F) :=
  match (w.account? receiver).bind (·.storageRoot.get? product) with
  | none => .ok (w.update receiver (State.store product (.float amount)))
  | some held =>
    match numericToFloat held with
    | none => .err (.errorf "cannot cast to float: %v" [.value held])
    | some h => .ok (w.update receiver (State.store product (.float (Float64.add amount h))))

def runSend (proposer acceptor : String) (action : Action F) (w : World F) : Res F Unit × World F :=
  andThen (stringParam action 0) w fun product =>
  andThen (numberParam action 1) w fun amount =>
    if action.role = "buyer" then
      andThen (sendOut proposer product amount "cannot cast to float: %v" w) w fun w =>
      andThen (sendIn acceptor product amount w) w fun w => (.ok (), w)
    else if action.role = "seller" then
      andThen (sendOut acceptor product amount "cannot cast to float: %T" w) w fun w =>
      andThen (sendIn proposer product amount w) w fun w => (.ok (), w)
    else (.ok (), w)

def runAction (proposer acceptor : String) (action : Action F) (w : World F) :
    Res F Unit × World F :=
  if action.action = "transfer" then runTransfer proposer acceptor action w
  else if action.action = "send" then runSend proposer acceptor action w
  else (.ok (), w)

def runActions (proposer acceptor : String) : List (Action F) → World F → Res F Unit × World F
  | [], w => (.ok (), w)
  | action :: rest, w =>
    match runAction proposer acceptor action w with
    | (.ok _, w') => runActions proposer acceptor rest w'
    | r => r

structure Plan (F : Type) where
  proposer : String
  acceptor : String
  actions : List (Action F)

/-- `doContract` up to its action loop, which only reads. `none` is the early `return nil` of
a contract whose assumptions do not hold. -/
def planContract (env : Env F) (txn : SignedTransaction F) (w : World F) :
    Res F (Option (Plan F)) := do
  let contractState ← retrieveState txn.txn.toAddr.string w
  let c ← wrapErr "unmarshal contract byte code error: %w" (env.unmarshalContract contractState.code)
  if txn.txn.fromAddr.string ≠ c.acceptorAccount then
    .err (.errorf "contract not triggered by acceptor: %s" [.str txn.txn.fromAddr.string])
  else
    let (valid, c) ← wrapErr "validating contract assumptions got stuck: %w" (c.validateAssumptions w)
    if !valid then return none
    else
      let (actions, c) ← wrapErr "contract if clauses fail to evaluate: %w" (c.collectActions w)
      let _ ← wrapErr "fail to retrieve proposer state: %w" (retrieveState c.proposerAccount w)
      let _ ← wrapErr "fail to retrieve acceptor state: %w" (retrieveState c.acceptorAccount w)
      return some ⟨c.proposerAccount, c.acceptorAccount, actions⟩

/-- The two `Put`s at the end store the pointers that are already there. -/
def doContract (env : Env F) (txn : SignedTransaction F) (w : World F) : Res F Unit × World F :=
  andThen (planContract env txn w) w fun
    | none => (.ok (), w)
    | some plan =>
      let (r, w') := runActions plan.proposer plan.acceptor plan.actions w
      andThen r w' fun _ => (.ok (), w'.update plan.acceptor State.addNonce)

/-- `createContract` writes the new account over whatever is at `To`. -/
def createContract (txn : SignedTransaction F) (w : World F) : Res F Unit × World F :=
  let sender := txn.txn.fromAddr.string
  let state : State F := ⟨0, 0, .new, txn.txn.code⟩
  andThen (hideErr "Fail to retrive target contract: " (retrieveState sender w)) w fun _ =>
    (.ok (), (w.update sender State.addNonce).put txn.txn.toAddr.string (.account state))

/-! ## One transaction -/

def wrapFst (format : String) (r : Res F Unit × World F) : Res F Unit × World F :=
  (wrapErr format r.1, r.2)

def doExecuteTxn (env : Env F) (txn : SignedTransaction F) (w : World F) : Res F Unit × World F :=
  if txn.txn.toAddr.isContract ∧ txn.txn.type ≠ CREATE_CONTRACT then doContract env txn w
  else if txn.txn.type = CREATE_CONTRACT then
    wrapFst "create contract error: %w" (createContract txn w)
  else if txn.txn.type = SET_STORAGE then wrapFst "set storage error: %w" (setStorage txn w)
  else wrapFst "execute value transfer error: %w" (doValueTransfer txn w)

def executeTxn (env : Env F) (txn : SignedTransaction F) (w : World F) : Res F Unit × World F :=
  wrapFst "execute error: %w" (doExecuteTxn env txn w)

/-! ## An environment to compute with

Hashing prepends two zero bytes, so it has no collisions and meets difficulty 2.
A signature is the 64 bytes of the public key and one more byte. There is one
contract at most, and the code of an account decodes to it.
-/

def sampleEnv (contract? : Option (Contract Int)) : Env Int where
  sha256 bs := 0 :: 0 :: bs
  ecrecover _ signature :=
    if signature.length = 65 then .ok (4 :: signature.take 64)
    else .err (.errorf "invalid signature length" [])
  verifySignature publicKey _ signature := publicKey = 4 :: signature
  unmarshalContract _ := contract?.elim (.err (.errorf "invalid character" [])) .ok

theorem sampleEnv_sha256_injective (contract? : Option (Contract Int)) (a b : Bytes)
    (h : (sampleEnv contract?).sha256 a = (sampleEnv contract?).sha256 b) : a = b := by
  simpa [sampleEnv] using h

/-- Hashing keeps the first 65 bytes only, to compute with whole blocks. -/
def blockEnv (contract? : Option (Contract Int)) : Env Int :=
  { sampleEnv contract? with sha256 := fun bs => 0 :: 0 :: bs.take 65 }

def sampleMiner : Miner := ⟨"127.0.0.1:1", Address.new (Vector.replicate 8 9), 1, false⟩

def sampleAddress (b : UInt8) : Address := Address.new (Vector.replicate 8 b)

def sampleContractAddress : Address := Address.new #v[0, 0, 0, 0, 1, 1, 1, 1]

def sampleTxn (nonce : Int64) (fromAddr toAddr : Address) (type value : Int64) : Transaction Int :=
  { nonce, fromAddr, toAddr, type, code := "", value, storeK := "", storeV := .str "", v := "", r := "", s := "" }

def sampleSigned (b : UInt8) (txn : Transaction Int) : SignedTransaction Int :=
  ⟨txn, txn.hash (sampleEnv none), List.replicate 64 b ++ [0]⟩

def sampleState (nonce balance : UInt64) (code : String) : State Int := ⟨nonce, balance, .new, code⟩

def sampleWorld (accounts : List (Address × State Int)) : World Int :=
  accounts.foldl (fun w e => w.put e.1.string (.account e.2)) .new

def paymentWorld : World Int :=
  sampleWorld [(sampleAddress 1, sampleState 0 7 ""), (sampleAddress 2, sampleState 0 5 "")]

def payment : SignedTransaction Int :=
  sampleSigned 1 (sampleTxn 0 (sampleAddress 1) (sampleAddress 2) EXEC_TXN 3)

end MarketPeer.Ledger
