import MarketPeer.Ledger.Block

/-!
# The chain of blocks

`BlockChain` of `blockchain/block`: blocks by hash and the ends. The loops that
follow parent hashes take a number of rounds, and give `none` when it does not
suffice.
-/

namespace MarketPeer.Ledger

variable {F : Type}

structure BlockChain (F : Type) where
  blocksMap : Std.ExtTreeMap String (Block F)
  ends : List (Block F)

namespace BlockChain

def newWithGenesis (env : Env F) (genesis : Block F) : BlockChain F :=
  ⟨(∅ : Std.ExtTreeMap String (Block F)).insert (genesis.hash env) genesis, [genesis]⟩

def firstEnd (bc : BlockChain F) : Res F (Block F) :=
  bc.ends.head?.elim (.panic outOfRange) .ok

/-! ## Queries -/

def getBlockLoop (bc : BlockChain F) (number : Int64) : Nat → String → Option (Res F (Block F))
  | 0, _ => none
  | fuel + 1, ptr =>
    if ptr = DUMMY_PARENT_HASH then some (.panic "it shall not be reached")
    else
      match bc.blocksMap[ptr]? with
      | none => some (.panic nilDeref)
      | some b =>
        if b.header.number = number then some (.ok b)
        else bc.getBlockLoop number fuel b.header.parentHash

def getBlock (bc : BlockChain F) (fuel : Nat) (number : Int64) : Option (Res F (Block F)) :=
  match bc.firstEnd with
  | .ok last =>
    if number < 0 then some (.err (.errorf "number(%d)<0" [.int number]))
    else if last.header.number < number then
      some (.err (.errorf "number(%d) too new, end's number=%d" [.int number, .int last.header.number]))
    else if last.header.number = number then some (.ok last)
    else bc.getBlockLoop number fuel last.header.parentHash
  | r => some r

def lenLoop (bc : BlockChain F) : Nat → String → Int64 → Option (Res F Int64)
  | 0, _, _ => none
  | fuel + 1, ptr, ret =>
    if ptr = DUMMY_PARENT_HASH then some (.ok ret)
    else
      match bc.blocksMap[ptr]? with
      | none => some (.panic nilDeref)
      | some b => bc.lenLoop fuel b.header.parentHash (ret + 1)

def len (bc : BlockChain F) (fuel : Nat) : Option (Res F Int64) :=
  match bc.firstEnd with
  | .ok last => bc.lenLoop fuel last.header.parentHash 1
  | .err e => some (.err e)
  | .panic why => some (.panic why)

def latestWorldState (bc : BlockChain F) : Res F (World F × Block F) :=
  match bc.ends with
  | [last] => .ok (last.state, last)
  | _ => .err (.errorf "ends not decided yet" [])

variable [Float64 F]

def hasTxnLoop (env : Env F) (bc : BlockChain F) (handle : String) :
    Nat → String → Int64 → Option (Res F (Bool × Int64))
  | 0, _, _ => none
  | fuel + 1, ptr, nBlocksAfter =>
    if ptr = DUMMY_PARENT_HASH then some (.ok (false, -1))
    else
      match bc.blocksMap[ptr]? with
      | none => some (.panic nilDeref)
      | some b =>
        if b.hasTxn env handle then some (.ok (true, nBlocksAfter + 1))
        else bc.hasTxnLoop env handle fuel b.header.parentHash (nBlocksAfter + 1)

def hasTxn (env : Env F) (bc : BlockChain F) (fuel : Nat) (handle : String) :
    Option (Res F (Bool × Int64)) :=
  if bc.ends.any (·.hasTxn env handle) then some (.ok (true, 0))
  else
    match bc.firstEnd with
    | .ok last => bc.hasTxnLoop env handle fuel last.header.parentHash 0
    | .err e => some (.err e)
    | .panic why => some (.panic why)

/-! ## Appending -/

omit [Float64 F]

def tooNew (number endsNumber : Int64) : GoError F :=
  .wrap "block too new(number=%d), cannot connect to ends(number=%d), block=%s; %w"
    [.int number, .int endsNumber] (.sentinel .blockTooNew)

def conflict : String := "fatal error, block numbering is confilcted with parentHash"

/-- `TryAppend`: the end that the block connects to. -/
def tryAppend (env : Env F) (bc : BlockChain F) (block : Block F) : Res F (Block F) := do
  let last ← bc.firstEnd
  let endsNumber := last.header.number
  if block.header.number - endsNumber ≥ 2 then .err (tooNew block.header.number endsNumber)
  else if block.header.number - endsNumber ≤ 0 then
    .err (.errorf "block number(%d) not valid, cannot connect to ends(number=%d), block=%s"
      [.int block.header.number, .int endsNumber])
  else
    match bc.ends.find? fun b => b.hash env = block.header.parentHash with
    | some b => if block.header.number ≠ endsNumber + 1 then .panic conflict else .ok b
    | none => .err (.errorf "block(parentHash=%s) cannot be connected to ends(%s), block=%s"
        [.str (String.ofList ((block.hash env).toList.take 6) ++ "..."),
          .str (String.ofList ((last.hash env).toList.take 6) ++ "...")])

/-- `Append` has no check that the number is too old. -/
def append (env : Env F) (bc : BlockChain F) (block : Block F) : Res F Unit × BlockChain F :=
  match bc.firstEnd with
  | .ok last =>
    let endsNumber := last.header.number
    if block.header.number - endsNumber ≥ 2 then (.err (tooNew block.header.number endsNumber), bc)
    else
      match bc.ends.find? fun b => b.hash env = block.header.parentHash with
      | some _ =>
        if block.header.number ≠ endsNumber + 1 then (.panic conflict, bc)
        else (.ok (), ⟨bc.blocksMap.insert (block.hash env) block, [block]⟩)
      | none => (.err (.errorf "block too old, cannot connect to ends, block=%s" []), bc)
  | .err e => (.err e, bc)
  | .panic why => (.panic why, bc)

end BlockChain

end MarketPeer.Ledger
