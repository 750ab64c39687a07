import MarketPeer.Ledger.Chain
import MarketPeer.Ledger.Wire
import MarketPeer.Lib.Runs

/-!
# Catching up with a peer

`verifyBlockd` on a block that is too new: it asks the sender for all blocks below it,
one request after the other, overwrites its chain with them and appends the block.
-/

namespace MarketPeer.Ledger

variable {F : Type}

/-! ## Requests and replies -/

structure AskForBlock where
  timeStamp : Int64
  number : Int64

/-- `AskForBlockReplyMessage`; without success its block is the zero one, whose state is nil. -/
inductive AskForBlockReply (F : Type) where
  | found (timeStamp : Int64) (block : Block F)
  | missing (timeStamp : Int64)

/-- `AskForBlockMsgCallback` on the chain of the peer; `none` when it panics or does not end. -/
def askForBlockMsgCallback (fuel : Nat) (peer : BlockChain F) (ask : AskForBlock) : Option (AskForBlockReply F) :=
  match peer.getBlock fuel ask.number with
  | some (.ok b) => some (.found ask.timeStamp b)
  | some (.err _) => some (.missing ask.timeStamp)
  | _ => none

/-- The reply as the registry decodes it: in `NewEmpty` the state and the receipts are nil. The
accounts of a state that is decoded are generic maps. -/
def decodeReply [Float64 F] : AskForBlockReply F → Res F (AskForBlockReply F)
  | .missing timeStamp => do
    let _ ← decodeKV (F := F) none none
    return .missing timeStamp
  | .found timeStamp b => do
    let state ← decodeKV none (some b.state.wire)
    let receipts ← decodeKV none (some ⟨b.receipts.internal.map fun _ v => wireValue v⟩)
    return .found timeStamp
      { b with
        state := ⟨(state.getD .new).internal.map fun _ v => .other v⟩
        transactions := b.transactions.map (Option.map SignedTransaction.wire)
        receipts := receipts.getD .new }

/-! ## The handler -/

/-- Where `verifyBlockd` is. `blocks` are the replies so far, newest block first. -/
inductive Phase (F : Type) where
  | asking (askNumber : Int64) (blocks : List (Block F))
  | waiting (timeStamp askNumber : Int64) (blocks : List (Block F))
  | overwriting (toAppend : List (Block F))
  | appending
  | caughtUp
  | gaveUp
  | crashed

/-- The miner in `verifyBlockd`, and the requests and replies on their way. `mu` says that the lock
of the chain is held; a future has room for one reply. -/
structure CatchUp (F : Type) where
  chain : BlockChain F
  mu : Bool
  futures : Int64 → Option (List (AskForBlockReply F))
  phase : Phase F
  asks : List AskForBlock
  replies : List (AskForBlockReply F)

/-- `verifyBlockd` takes the block from `blockCh`. -/
def receiveNewBlock [Float64 F] (env : Env F) (bc : BlockChain F) (newBlock : Block F) : CatchUp F :=
  let (verdict, chain) := verifyBlock env bc newBlock
  { chain
    mu := false
    futures := fun _ => none
    phase :=
      match verdict with
      | .catchUp _ => .asking (newBlock.header.number - 1) []
      | .crashed _ => .crashed
      | _ => .gaveUp
    asks := []
    replies := [] }

inductive CatchUpEvent where
  | ask (now : Int64)
  | answer (i : Nat)
  | receive (i : Nat)
  | read
  | append
  | unlock

/-- The head of the loop of `askForMissingBlocks` with `askForBlock` up to its wait; when the loop
is done, `OverWrite` takes the lock and begins with the last block. -/
def askForMissingBlocks (env : Env F) (s : CatchUp F) (askNumber now : Int64) (blocks : List (Block F)) :
    Option (CatchUp F) :=
  if askNumber ≥ 0 then
    some { s with
      futures := Function.update s.futures now (some [])
      asks := s.asks ++ [⟨now, askNumber⟩]
      phase := .waiting now askNumber blocks }
  else if s.mu then none
  else
    match blocks.reverse with
    | [] => some { s with phase := .crashed }
    | genesis :: toAppend => some { s with
        mu := true
        chain := .newWithGenesis env genesis
        phase := .overwriting toAppend }

/-- `AskForBlockReplyMsgCallback`: a full future keeps what it has. -/
def askForBlockReplyMsgCallback (s : CatchUp F) (reply : AskForBlockReply F) : CatchUp F :=
  let timeStamp := match reply with | .found timeStamp _ => timeStamp | .missing timeStamp => timeStamp
  match s.futures timeStamp with
  | some [] => { s with futures := Function.update s.futures timeStamp (some [reply]) }
  | _ => s

/-- The receive of `askForBlock`. -/
def readReply (s : CatchUp F) (timeStamp askNumber : Int64) (blocks : List (Block F)) : Option (CatchUp F) :=
  match s.futures timeStamp with
  | some (.found _ b :: rest) => some { s with
      futures := Function.update s.futures timeStamp (some rest)
      phase := .asking (askNumber - 1) (blocks ++ [b]) }
  | some (.missing _ :: rest) => some { s with
      futures := Function.update s.futures timeStamp (some rest)
      phase := .gaveUp }
  | _ => none

/-- `Append` takes the lock of the chain, which must not be held. -/
def lockedAppend (env : Env F) (s : CatchUp F) (b : Block F) (next : Phase F) : Option (CatchUp F) :=
  if s.mu then none
  else
    match s.chain.append env b with
    | (.ok _, chain) => some { s with chain, phase := next }
    | (.err _, chain) => some { s with chain, phase := .gaveUp }
    | (.panic _, chain) => some { s with chain, phase := .crashed }

def catchUpStep [Float64 F] (env : Env F) (fuel : Nat) (peer : BlockChain F) (newBlock : Block F)
    (s : CatchUp F) : CatchUpEvent → Option (CatchUp F)
  | .ask now =>
    match s.phase with
    | .asking askNumber blocks => askForMissingBlocks env s askNumber now blocks
    | _ => none
  | .answer i => (s.asks[i]?).map fun ask =>
      { s with
        asks := s.asks.eraseIdx i
        replies := s.replies ++ (askForBlockMsgCallback fuel peer ask).toList }
  | .receive i => (s.replies[i]?).map fun reply =>
      let s := { s with replies := s.replies.eraseIdx i }
      match decodeReply reply with
      | .ok reply => askForBlockReplyMsgCallback s reply
      | _ => s
  | .read =>
    match s.phase with
    | .waiting timeStamp askNumber blocks => readReply s timeStamp askNumber blocks
    | _ => none
  | .append =>
    match s.phase with
    | .overwriting (b :: toAppend) => lockedAppend env s b (.overwriting toAppend)
    | .appending => lockedAppend env s newBlock .caughtUp
    | _ => none
  | .unlock =>
    match s.phase with
    | .overwriting [] => some { s with mu := false, phase := .appending }
    | _ => none

/-! ## No reply is ever read -/

/-- An honest peer has `n + 1` blocks and sends the next one to a miner that lacks some of them. -/
structure Behind (env : Env F) (peer : BlockChain F) (held : List (Block F)) (miner : BlockChain F)
    (own : List (Block F)) (newBlock : Block F) (n : Nat) : Prop where
  peer : Represents env peer held
  length : held.length = n + 1
  miner : Represents env miner own
  behind : own.length ≤ n
  genesis : own.getLast? = held.getLast?
  pow : powValid env newBlock = .ok true
  number : newBlock.header.number.toInt = n + 1
  parent : newBlock.header.parentHash = tipHash env held

/-- The handler ends, with the blocks of the peer and the new one, and all accounts as accounts. -/
def CatchesUp [Float64 F] (env : Env F) (fuel : Nat) (peer miner : BlockChain F) (held : List (Block F))
    (newBlock : Block F) : Prop :=
  ∃ es s, run (catchUpStep env fuel peer newBlock) (receiveNewBlock env miner newBlock) es = some s ∧
    s.phase = .caughtUp ∧ Represents env s.chain (newBlock :: held) ∧
    ∀ (h : String) (b : Block F), s.chain.blocksMap[h]? = some b →
      ∀ k e, b.state.get? k = some e → ∃ a, e = .account a

/-- Block `number` has been asked for, and no reply has come through. -/
structure Unanswered (number : Int64) (s : CatchUp F) : Prop where
  phase : s.phase = .asking number [] ∨ ∃ timeStamp, s.phase = .waiting timeStamp number []
  asks : ∀ ask ∈ s.asks, ask.number = number
  replies : ∀ reply ∈ s.replies, ∃ timeStamp b, reply = .found timeStamp b
  futures : ∀ timeStamp, (s.futures timeStamp).getD [] = []

section Unanswered

variable [Float64 F] {env : Env F} {fuel : Nat} {peer : BlockChain F} {newBlock last : Block F}
  {number : Int64} {s s' : CatchUp F}

omit [Float64 F] in
theorem Unanswered.ask (h : Unanswered number s) (hnumber : number ≥ 0) (now : Int64)
    (hstep : askForMissingBlocks env s number now [] = some s') : Unanswered number s' := by
  unfold askForMissingBlocks at hstep
  rw [if_pos hnumber, Option.some.injEq] at hstep
  subst hstep
  refine ⟨.inr ⟨now, rfl⟩, ?_, h.replies, ?_⟩
  · intro ask hask
    rcases List.mem_append.mp hask with hask | hask
    · exact h.asks ask hask
    · rw [List.mem_singleton] at hask
      rw [hask]
  · intro timeStamp
    by_cases heq : timeStamp = now
    · subst heq; simp
    · simpa [heq] using h.futures timeStamp

/-- The state of a block is an object, which the empty reply has no place for. -/
theorem Unanswered.step (h : Unanswered number s) (hnumber : number ≥ 0)
    (hpeer : peer.getBlock fuel number = some (.ok last)) (e : CatchUpEvent)
    (hstep : catchUpStep env fuel peer newBlock s e = some s') : Unanswered number s' := by
  unfold catchUpStep at hstep
  cases e with
  | ask now =>
    rcases h.phase with hphase | ⟨timeStamp, hphase⟩ <;> simp only [hphase] at hstep
    · exact h.ask hnumber now hstep
    · cases hstep
  | answer i =>
    obtain ⟨ask, hask, rfl⟩ := Option.map_eq_some_iff.mp hstep
    refine ⟨h.phase, fun a ha => h.asks a (List.mem_of_mem_eraseIdx ha), ?_, h.futures⟩
    have hn := h.asks ask (List.mem_of_getElem? hask)
    intro reply hreply
    rcases List.mem_append.mp hreply with hreply | hreply
    · exact h.replies reply hreply
    · simp only [askForBlockMsgCallback, hn, hpeer, Option.toList_some, List.mem_singleton] at hreply
      exact ⟨_, _, hreply⟩
  | receive i =>
    obtain ⟨reply, hreply, rfl⟩ := Option.map_eq_some_iff.mp hstep
    obtain ⟨timeStamp, b, rfl⟩ := h.replies reply (List.mem_of_getElem? hreply)
    exact ⟨h.phase, h.asks, fun r hr => h.replies r (List.mem_of_mem_eraseIdx hr), h.futures⟩
  | read =>
    rcases h.phase with hphase | ⟨timeStamp, hphase⟩ <;> simp only [hphase] at hstep
    · cases hstep
    · have hempty := h.futures timeStamp
      unfold readReply at hstep
      split at hstep <;> simp_all
  | append => rcases h.phase with hphase | ⟨timeStamp, hphase⟩ <;> simp only [hphase] at hstep <;> cases hstep
  | unlock => rcases h.phase with hphase | ⟨timeStamp, hphase⟩ <;> simp only [hphase] at hstep <;> cases hstep

/-- Once the reply is gone, nothing can happen any more. -/
theorem Unanswered.stuck (h : Unanswered number s) (hwaiting : ∃ timeStamp, s.phase = .waiting timeStamp number [])
    (hasks : s.asks = []) (hreplies : s.replies = []) (e : CatchUpEvent) :
    catchUpStep env fuel peer newBlock s e = none := by
  obtain ⟨timeStamp, hphase⟩ := hwaiting
  unfold catchUpStep
  cases e with
  | ask now => simp only [hphase]
  | answer i => simp [hasks]
  | receive i => simp [hreplies]
  | read =>
    have hempty := h.futures timeStamp
    simp only [hphase, readReply]
    split <;> simp_all
  | append => simp only [hphase]
  | unlock => simp only [hphase]

end Unanswered

section Never

variable [Float64 F] {env : Env F} {peer miner : BlockChain F} {held own : List (Block F)} {newBlock : Block F}
  {n : Nat}

/-- The block is too new for the miner, so that it starts to ask. -/
theorem Behind.receive (h : Behind env peer held miner own newBlock n) :
    Unanswered (newBlock.header.number - 1) (receiveNewBlock env miner newBlock) := by
  obtain ⟨last, rest, rfl⟩ := List.exists_cons_of_ne_nil h.miner.nonempty
  have hbehind := h.behind
  rw [List.length_cons] at hbehind
  have hbound := newBlock.header.number.toInt_lt
  have hn := h.number
  have hfirst := firstEnd_of_represents h.miner
  have hlast : last.header.number.toInt = rest.length := by
    rw [h.miner.numbered.1, Int64.toInt_ofNat_of_lt (by omega)]
  have hnew : newBlock.header.number - last.header.number ≥ 2 := by
    rw [ge_iff_le, Int64.le_iff_toInt_le, Int64.toInt_sub, hn, hlast,
      Int.bmod_eq_of_le (by omega) (by omega)]
    change (2 : Int) ≤ _
    omega
  have hverdict : verifyBlock env miner newBlock =
      (.catchUp (BlockChain.tooNew newBlock.header.number last.header.number), miner) := by
    unfold verifyBlock
    simp only [h.pow, BlockChain.tryAppend, hfirst, Outcome.ok_bind, if_pos hnew]
    rfl
  unfold receiveNewBlock
  rw [hverdict]
  exact ⟨.inl rfl, by simp, by simp, by simp⟩

omit [Float64 F] in
/-- The first request is for the end of the peer, which the peer has. -/
theorem Behind.getBlock (h : Behind env peer held miner own newBlock n) (fuel : Nat) :
    newBlock.header.number - 1 ≥ 0 ∧
      ∃ last, peer.getBlock fuel (newBlock.header.number - 1) = some (.ok last) := by
  obtain ⟨last, rest, rfl⟩ := List.exists_cons_of_ne_nil h.peer.nonempty
  have hlen := h.length
  rw [List.length_cons] at hlen
  have hbound := newBlock.header.number.toInt_lt
  have hn := h.number
  have hask : (newBlock.header.number - 1).toInt = n := by
    rw [Int64.toInt_sub, hn]
    change Int.bmod (↑n + 1 - 1) (2 ^ 64) = n
    rw [Int.bmod_eq_of_le (by omega) (by omega)]
    omega
  have hlast : last.header.number = newBlock.header.number - 1 := by
    rw [← Int64.toInt_inj, hask, h.peer.numbered.1, Int64.toInt_ofNat_of_lt (by omega)]
    omega
  have hpos : newBlock.header.number - 1 ≥ 0 := by
    rw [ge_iff_le, Int64.le_iff_toInt_le, hask]
    change (0 : Int) ≤ _
    omega
  refine ⟨hpos, last, ?_⟩
  unfold BlockChain.getBlock
  rw [firstEnd_of_represents h.peer]
  simp [hlast, Int64.not_lt, hpos]

theorem Behind.unanswered (h : Behind env peer held miner own newBlock n) (fuel : Nat)
    (es : List CatchUpEvent) {s : CatchUp F}
    (hrun : run (catchUpStep env fuel peer newBlock) (receiveNewBlock env miner newBlock) es = some s) :
    Unanswered (newBlock.header.number - 1) s := by
  obtain ⟨hnumber, last, hpeer⟩ := h.getBlock fuel
  exact run_preserves (Unanswered (newBlock.header.number - 1))
    (fun _ e _ hs hstep => hs.step hnumber hpeer e hstep) es h.receive hrun

omit [Float64 F] in
theorem Unanswered.not_caughtUp {number : Int64} {s : CatchUp F} (h : Unanswered number s) :
    s.phase ≠ .caughtUp := by
  rcases h.phase with hphase | ⟨timeStamp, hphase⟩ <;> rw [hphase] <;> simp

/-- A miner that is behind never catches up. -/
theorem catchUp_never_ends (h : Behind env peer held miner own newBlock n) (fuel : Nat) :
    ¬ CatchesUp env fuel peer miner held newBlock := by
  rintro ⟨es, s, hrun, hphase, -⟩
  exact (h.unanswered fuel es hrun).not_caughtUp hphase

end Never

/-! ## One block behind -/

def sampleGrandchild : Block Int := sampleBlock (sampleChild.hash (blockEnv none)) 2

def samplePeer : ChainHistory Int := (ChainHistory.genesis (blockEnv none) sampleRoot).append (blockEnv none) sampleChild

theorem samplePeer_blocks : samplePeer.blocks = [sampleChild, sampleRoot] := by
  have hok : ((ChainHistory.genesis (blockEnv none) sampleRoot).bc.append (blockEnv none) sampleChild).1.isOk = true := by
    decide +kernel
  unfold samplePeer ChainHistory.append
  rcases append_cases (blockEnv none) (ChainHistory.genesis (blockEnv none) sampleRoot).bc sampleChild sampleRoot rfl
    with ⟨heq, -⟩ | ⟨hno, -⟩
  · rw [heq]; rfl
  · rw [hok] at hno
    cases hno

/-- The peer has a genesis and its child, the miner only the genesis. -/
theorem samplePeer_ahead : Behind (blockEnv none) samplePeer.bc samplePeer.blocks
    (.newWithGenesis (blockEnv none) sampleRoot) [sampleRoot] sampleGrandchild 1 where
  peer := append_represents _ _ _ (represents_genesis _ _ rfl rfl)
  length := by rw [samplePeer_blocks]; rfl
  miner := represents_genesis _ _ rfl rfl
  behind := by decide
  genesis := by rw [samplePeer_blocks]; simp
  pow := rfl
  number := by decide
  parent := by rw [samplePeer_blocks]; rfl

def Phase.isWaiting : Phase F → Bool
  | .waiting _ _ _ => true
  | _ => false

/-- The request is answered and the answer is delivered; then nothing is left to be done, and the
handler still waits. -/
theorem samplePeer_reply_lost :
    Behind (blockEnv none) samplePeer.bc samplePeer.blocks (.newWithGenesis (blockEnv none) sampleRoot)
      [sampleRoot] sampleGrandchild 1 ∧
    (∃ s, run (catchUpStep (blockEnv none) 2 samplePeer.bc sampleGrandchild)
        (receiveNewBlock (blockEnv none) (.newWithGenesis (blockEnv none) sampleRoot) sampleGrandchild)
        [.ask 7, .answer 0, .receive 0] = some s ∧
      ∀ e, catchUpStep (blockEnv none) 2 samplePeer.bc sampleGrandchild s e = none) ∧
    ¬ CatchesUp (blockEnv none) 2 samplePeer.bc (.newWithGenesis (blockEnv none) sampleRoot) samplePeer.blocks
      sampleGrandchild := by
  refine ⟨samplePeer_ahead, ?_, ?_⟩
  · have hrun : (run (catchUpStep (blockEnv none) 2 samplePeer.bc sampleGrandchild)
        (receiveNewBlock (blockEnv none) (.newWithGenesis (blockEnv none) sampleRoot) sampleGrandchild)
        [.ask 7, .answer 0, .receive 0]).any (fun s => s.asks.isEmpty && s.replies.isEmpty &&
          s.phase.isWaiting) = true := by decide +kernel
    obtain ⟨s, hs, hidle⟩ := (Option.any_eq_true ..).mp hrun
    simp only [Bool.and_eq_true, List.isEmpty_iff] at hidle
    obtain ⟨⟨hasks, hreplies⟩, hphase⟩ := hidle
    have hun := samplePeer_ahead.unanswered 2 _ hs
    refine ⟨s, hs, hun.stuck ?_ hasks hreplies⟩
    rcases hun.phase with hasking | hwaiting
    · rw [hasking] at hphase
      cases hphase
    · exact hwaiting
  · rintro ⟨es, s, hrun, hphase, -⟩
    exact (samplePeer_ahead.unanswered 2 es hrun).not_caughtUp hphase

theorem samplePeer_never_reached :
    Behind (blockEnv none) samplePeer.bc samplePeer.blocks (.newWithGenesis (blockEnv none) sampleRoot)
      [sampleRoot] sampleGrandchild 1 ∧
    ¬ CatchesUp (blockEnv none) 2 samplePeer.bc (.newWithGenesis (blockEnv none) sampleRoot) samplePeer.blocks
      sampleGrandchild :=
  ⟨samplePeer_ahead, catchUp_never_ends samplePeer_ahead 2⟩

end MarketPeer.Ledger
