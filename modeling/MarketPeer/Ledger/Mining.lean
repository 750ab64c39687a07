import MarketPeer.Ledger.Nonces

/-!
# Mined blocks and received blocks

The mining loop folds over the transactions it is offered and keeps the ones that
succeed; a receiver folds over the kept ones only, and checks none of them. Both
folds start at the state of the parent.
-/

namespace MarketPeer.Ledger

open MarketPeer.Contracts

variable {F : Type} [Float64 F]

/-! ## Replaying -/

theorem replay_append (env : Env F) (xs ys : List (Option (SignedTransaction F))) (w w' : World F)
    (h : replay env w xs = .ok w') : replay env w (xs ++ ys) = replay env w' ys := by
  induction xs generalizing w with
  | nil =>
    simp only [replay, Outcome.ok.injEq] at h
    rw [h, List.nil_append]
  | cons x xs ih =>
    cases x with
    | none => simp [replay] at h
    | some t =>
      rw [List.cons_append, replay] at *
      split at h
      · simp at h
      · exact ih _ h

theorem replay_cons (env : Env F) (t : SignedTransaction F) (rest : List (Option (SignedTransaction F)))
    (w : World F) (hok : (executeTxn env t w).1.isOk = true) :
    replay env w (some t :: rest) = replay env (executeTxn env t w).2 rest := by
  obtain ⟨u, hu⟩ := (Outcome.isOk_iff _).mp hok
  rw [replay]
  split
  · rename_i why w' h
    rw [h] at hu; cases hu
  · rename_i w' _ h
    rw [h]

/-! ## A failing transaction -/

/-- A loop that does not return nil stopped at one action, with all before it done. -/
theorem runActions_stopped (p a : String) (xs : List (Action F)) (w w' : World F) (r : Res F Unit)
    (h : runActions p a xs w = (r, w')) (hr : r.isOk = false) :
    ∃ before x after w1, xs = before ++ x :: after ∧ runActions p a before w = (.ok (), w1) ∧
      runAction p a x w1 = (r, w') := by
  induction xs generalizing w with
  | nil =>
    simp only [runActions, Prod.mk.injEq] at h
    rw [← h.1] at hr
    cases hr
  | cons x rest ih =>
    unfold runActions at h
    split at h
    · rename_i u w1 hx
      obtain ⟨before, x', after, w2, rfl, hbefore, hx'⟩ := ih w1 h
      exact ⟨x :: before, x', after, w2, rfl, by simp [runActions, hx, hbefore], hx'⟩
    · exact ⟨[], x, rest, w, rfl, rfl, h⟩

theorem runActions_idle (p a : String) (xs : List (Action F)) (w w' : World F)
    (h : runActions p a xs w = (.ok (), w')) (hidle : ∀ x ∈ xs, ¬ writes x) : w' = w := by
  induction xs generalizing w with
  | nil => simpa [runActions] using h.symm
  | cons x rest ih =>
    rw [List.forall_mem_cons] at hidle
    unfold runActions at h
    split at h
    · rename_i u w1 hw1
      have hx := runAction_effect p a x w
      rw [hw1] at hx
      have hsame : w1 = w := by
        cases hx with
        | failed _ hr => cases hr
        | skipped => rfl
        | paid n hx hrole => exact absurd ⟨Or.inl hx, Or.inl hrole⟩ hidle.1
        | refunded n hx hrole => exact absurd ⟨Or.inl hx, Or.inr hrole⟩ hidle.1
        | halfSent _ _ _ _ _ hr => cases hr
        | sent _ _ _ _ _ hwrites => exact absurd hwrites hidle.1
      rw [← hsame]
      exact ih w1 h hidle.2
    · rename_i hnot
      exact (hnot () w' h).elim

/-- The contract that `t` calls fails at an action after an earlier one has written, or between
the two halves of a send. -/
def StopsMidway (env : Env F) (t : SignedTransaction F) (w : World F) : Prop :=
  t.isTrigger ∧ ∃ plan before x after w1, planContract env t w = .ok (some plan) ∧
    plan.actions = before ++ x :: after ∧
    runActions plan.proposer plan.acceptor before w = (.ok (), w1) ∧
    (runAction plan.proposer plan.acceptor x w1).1.isOk = false ∧
    ((∃ y ∈ before, writes y) ∨ HalfSends plan.proposer plan.acceptor x w1)

theorem executeTxn_failed (env : Env F) (t : SignedTransaction F) (w : World F)
    (hfail : (executeTxn env t w).1.isOk = false) (hclean : ¬ StopsMidway env t w) :
    (executeTxn env t w).2 = w := by
  have h := executeTxn_effect env t w
  generalize executeTxn env t w = r at h hfail
  cases h with
  | refused => rfl
  | idle => rfl
  | stopped plan r r' w' ht hplan hrun hr hr' =>
    obtain ⟨before, x, after, w1, hactions, hbefore, hx⟩ :=
      runActions_stopped plan.proposer plan.acceptor plan.actions w w' r hrun hr
    have hmid : ¬ ((∃ y ∈ before, writes y) ∨ HalfSends plan.proposer plan.acceptor x w1) := by
      intro h
      exact hclean ⟨ht, plan, before, x, after, w1, hplan, hactions, hbefore, by rw [hx]; exact hr, h⟩
    rw [not_or] at hmid
    have hw1 : w1 = w :=
      runActions_idle plan.proposer plan.acceptor before w w1 hbefore (fun y hy hw => hmid.1 ⟨y, hy, hw⟩)
    have hlast := runAction_effect plan.proposer plan.acceptor x w1
    rw [hx] at hlast
    cases hlast with
    | failed => exact hw1
    | skipped => cases hr
    | paid => cases hr
    | refunded => cases hr
    | halfSent _ _ _ _ hhalf => exact absurd hhalf hmid.2
    | sent => cases hr
  | ran => cases hfail
  | created => cases hfail
  | stored => cases hfail
  | moved => cases hfail

/-! ## The mining loop -/

theorem blockPoW_eq_ok (env : Env F) (bb : BlockBuilder F) (fuel : Nat) (nonce : UInt32) (b : Block F)
    (h : blockPoW env bb fuel nonce = some (.ok b)) :
    ∃ nonce', BlockBuilder.build env { bb with nonce := nonce' } = .ok b ∧
      (powValid env b : Res F Bool) = .ok true := by
  induction fuel generalizing nonce with
  | zero => simp [blockPoW] at h
  | succ fuel ih =>
    unfold blockPoW at h
    split at h
    · rename_i b' hb
      split at h
      · rename_i hpow
        simp only [Option.some.injEq, Outcome.ok.injEq] at h
        subst h
        exact ⟨nonce, hb, hpow⟩
      · exact ih (nonce + 1) h
      · simp at h
      · simp at h
    · rename_i r hnot
      simp only [Option.some.injEq] at h
      exact (hnot b h).elim

def offerStep (env : Env F) (m : Miner) (w : World F) (t : SignedTransaction F) : Option (World F) :=
  some (offer env m t w).2

/-- A block out of the loop replays to its own state: `kept` are the transactions that succeeded
so far, and they replay to the world the loop is at. -/
theorem loop_replays (env : Env F) (m : Miner) (mining : Mining) (lastBlock b : Block F)
    (kept offered : List (SignedTransaction F)) (w : World F)
    (hmeets : Meets (offerStep env m)
      (fun w t => doVerifyTxn env m t w = .ok () → ¬ StopsMidway env t w) w offered)
    (hkept : replay env lastBlock.state (kept.map some) = .ok w)
    (h : verifyAndExecuteTxnLoop env m mining lastBlock kept offered w = some (.ok b)) :
    replay env lastBlock.state b.transactions = .ok b.state ∧
      World.hash env b.state = .ok b.header.stateHash := by
  induction offered generalizing kept w with
  | nil => simp [verifyAndExecuteTxnLoop] at h
  | cons t rest ih =>
    have hcases := offer_cases env m t w
    have hrest := hmeets.2 _ rfl
    unfold verifyAndExecuteTxnLoop at h
    split at h
    · cases h
    · -- Dropped: it did not verify, or it failed without a trace.
      rename_i e w' hoffer
      rw [hoffer] at hrest hcases
      have hw' : w' = w := by
        rcases hcases with ⟨-, hsame⟩ | ⟨hv, hexec⟩
        · exact hsame
        · have := executeTxn_failed env t w (by rw [← hexec]; rfl) (hmeets.1 hv)
          rwa [← hexec] at this
      subst hw'
      exact ih kept w' hrest hkept h
    · rename_i u w' hoffer
      rw [hoffer] at hrest hcases
      have hkept' : replay env lastBlock.state ((kept ++ [t]).map some) = .ok w' := by
        rcases hcases with ⟨hno, -⟩ | ⟨-, hexec⟩
        · cases hno
        · rw [List.map_append, replay_append env _ _ _ w hkept, List.map_singleton,
            replay_cons env t [] w (by rw [← hexec]; rfl), ← hexec]
          rfl
      dsimp only at h
      split_ifs at h with hfull
      · exact ih (kept ++ [t]) w' hrest hkept' h
      · obtain ⟨nonce, hb, -⟩ := blockPoW_eq_ok env _ _ _ b h
        obtain ⟨hhash, hstate, htxns⟩ := build_eq_ok env _ b hb
        rw [hstate, htxns]
        exact ⟨hkept', hhash⟩

/-- A mined block passes the replay of its receivers, when no transaction on the way stopped
midway. -/
theorem mined_block_replays (env : Env F) (m : Miner) (mining : Mining) (lastBlock b : Block F)
    (offered : List (SignedTransaction F))
    (hmeets : Meets (offerStep env m)
      (fun w t => doVerifyTxn env m t w = .ok () → ¬ StopsMidway env t w) lastBlock.state offered)
    (h : verifyAndExecuteTxnLoop env m mining lastBlock [] offered lastBlock.state = some (.ok b)) :
    replay env lastBlock.state b.transactions = .ok b.state ∧
      World.hash env b.state = .ok b.header.stateHash :=
  loop_replays env m mining lastBlock b [] offered lastBlock.state hmeets rfl h

def sampleGenesisBuilder (w : World Int) : BlockBuilder Int :=
  { parentHash := DUMMY_PARENT_HASH
    difficulty := GENESIS_DIFFICULTY
    nonce := GENESIS_NONCE
    beneficiary := GENESIS_BENEFICIARY
    state := w }

def sampleMining : Mining := ⟨0, 0, 1⟩

/-- A payment that another account has signed, which does not verify. -/
def barePayment : SignedTransaction Int :=
  sampleSigned 2 (sampleTxn 0 (sampleAddress 1) (sampleAddress 2) EXEC_TXN 1)

/-- A payment to an account that does not exist, which verifies and fails. -/
def strayPayment : SignedTransaction Int :=
  sampleSigned 1 (sampleTxn 0 (sampleAddress 1) (sampleAddress 3) EXEC_TXN 1)

/-- Two transactions are dropped, and the third one fills the block. -/
theorem payment_block_replays :
    ∃ g b, BlockBuilder.build (blockEnv none) (sampleGenesisBuilder paymentWorld) = .ok g ∧
      verifyAndExecuteTxnLoop (blockEnv none) sampleMiner sampleMining g []
        [barePayment, strayPayment, payment] g.state = some (.ok b) ∧
      b.transactions.length = 1 ∧ replay (blockEnv none) g.state b.transactions = .ok b.state := by
  have hcheck : (BlockBuilder.build (blockEnv none) (sampleGenesisBuilder paymentWorld)).any (fun g =>
      (verifyAndExecuteTxnLoop (blockEnv none) sampleMiner sampleMining g []
        [barePayment, strayPayment, payment] g.state).any fun mined =>
          mined.any fun b => b.transactions.length = 1) = true := by decide +kernel
  obtain ⟨g, hg, hloop⟩ := (Outcome.any_eq_true ..).mp hcheck
  obtain ⟨mined, hmined, hok⟩ := (Option.any_eq_true ..).mp hloop
  obtain ⟨b, rfl, hone⟩ := (Outcome.any_eq_true ..).mp hok
  refine ⟨g, b, hg, hmined, of_decide_eq_true hone,
    (mined_block_replays _ _ _ g b _ (meets_of_forall _ ?_) hmined).1⟩
  intro t ht w _ hmid
  have htransfer : ∀ t ∈ [barePayment, strayPayment, payment], t.txn.toAddr.isContract = false := by decide
  have hno := htransfer t ht
  rw [hmid.1.1] at hno
  cases hno

/-- A contract that pays first and then sends what the seller does not have. -/
def applesContract : Contract Int :=
  newContract "1" "apples" "IF buyer.balance > 1 THEN buyer.transfer(2) seller.send(\"apple\", 1)"
    ⟨[], [some ⟨⟨⟨"buyer", [some ⟨"balance"⟩]⟩, ">", ⟨none, some 1⟩⟩,
      [some ⟨"buyer", "transfer", [some ⟨none, some 2⟩]⟩,
        some ⟨"seller", "send", [some ⟨some "apple", none⟩, some ⟨none, some 1⟩]⟩]⟩]⟩
    (sampleAddress 2).string (sampleAddress 0).string

def applesWorld : World Int :=
  sampleWorld [(sampleAddress 0, sampleState 0 7 ""), (sampleAddress 2, sampleState 0 5 ""),
    (sampleContractAddress, sampleState 0 0 (applesContract.marshal.getD ""))]

def applesTrigger : SignedTransaction Int :=
  sampleSigned 0 (sampleTxn 0 (sampleAddress 0) sampleContractAddress EXEC_CONTRACT 0)

def afterApples : SignedTransaction Int :=
  sampleSigned 0 (sampleTxn 0 (sampleAddress 0) (sampleAddress 2) EXEC_TXN 3)

/-- The trigger is dropped, but its first transfer stays in the block that the payment fills. -/
theorem applesTrigger_spoils_block :
    ∃ g b, BlockBuilder.build (blockEnv (some applesContract)) (sampleGenesisBuilder applesWorld) = .ok g ∧
      verifyAndExecuteTxnLoop (blockEnv (some applesContract)) sampleMiner sampleMining g []
        [applesTrigger, afterApples] g.state = some (.ok b) ∧
      b.transactions.length = 1 ∧
      ∃ w, replay (blockEnv (some applesContract)) g.state b.transactions = .ok w ∧
        World.hash (blockEnv (some applesContract)) w ≠ .ok b.header.stateHash := by
  have hcheck : (BlockBuilder.build (blockEnv (some applesContract)) (sampleGenesisBuilder applesWorld)).any (fun g =>
      (verifyAndExecuteTxnLoop (blockEnv (some applesContract)) sampleMiner sampleMining g []
        [applesTrigger, afterApples] g.state).any fun mined => mined.any fun b =>
      (replay (blockEnv (some applesContract)) g.state b.transactions).any fun w =>
      (World.hash (blockEnv (some applesContract)) w).any fun h =>
        decide (b.transactions.length = 1 ∧ h ≠ b.header.stateHash)) = true := by decide +kernel
  obtain ⟨g, hg, hloop⟩ := (Outcome.any_eq_true ..).mp hcheck
  obtain ⟨mined, hmined, hok⟩ := (Option.any_eq_true ..).mp hloop
  obtain ⟨b, rfl, hreplay⟩ := (Outcome.any_eq_true ..).mp hok
  obtain ⟨w, hw, hhash⟩ := (Outcome.any_eq_true ..).mp hreplay
  obtain ⟨h, hh, hblock⟩ := (Outcome.any_eq_true ..).mp hhash
  rw [decide_eq_true_eq] at hblock
  refine ⟨g, b, hg, hmined, hblock.1, w, hw, ?_⟩
  rw [hh, ne_eq, Outcome.ok.injEq]
  exact hblock.2

/-! ## Received blocks -/

theorem verifyBlock_appended (env : Env F) (bc bc' : BlockChain F) (b : Block F)
    (h : verifyBlock env bc b = (.appended, bc')) :
    (powValid env b : Res F Bool) = .ok true ∧ ∃ p w, bc.tryAppend env b = .ok p ∧
      replay env p.state b.transactions = .ok w ∧ World.hash env w = .ok b.header.stateHash ∧
      bc.append env b = (.ok (), bc') := by
  unfold verifyBlock at h
  split at h
  · rename_i hpow
    refine ⟨hpow, ?_⟩
    split at h
    · rename_i p hp
      split at h
      · rename_i hash hhash
        simp only [Outcome.bind_eq_ok] at hhash
        obtain ⟨w, hw, hhash⟩ := hhash
        split_ifs at h with hsame
        · cases h
        · rw [not_not] at hsame
          split at h
          · rename_i u bc1 hbc1
            rw [Prod.mk.injEq] at h
            exact ⟨p, w, hp, hw, by rw [hhash, hsame], by rw [hbc1, h.2]⟩
          · cases h
          · cases h
      · cases h
      · cases h
    · split_ifs at h <;> cases h
    · cases h
  · cases h
  · cases h
  · cases h

omit [Float64 F] in
theorem tryAppend_eq_ok (env : Env F) (bc : BlockChain F) (b last p : Block F) (hends : bc.ends = [last])
    (h : bc.tryAppend env b = .ok p) : p = last := by
  simp only [BlockChain.tryAppend, BlockChain.firstEnd, hends, List.head?_cons, Option.elim_some,
    Outcome.ok_bind, List.find?_singleton] at h
  split_ifs at h
  simp_all

theorem blockMsgCallback_eq_ok (env : Env F) (m : Miner) (source : String) (msg : BlockMessage F)
    (b : Block F) (h : blockMsgCallback env m source msg = .ok (some b)) :
    World.hash env b.state = .ok b.header.stateHash ∧ b.transactions = msg.transactions ∧
      ∃ raw, msg.state = some raw ∧ rebuildState raw = .ok b.state := by
  unfold blockMsgCallback at h
  split_ifs at h
  · cases h
  · split at h
    · cases h
    · rename_i raw hraw
      simp only [Outcome.bind_eq_ok, Outcome.pure_eq, Outcome.ok.injEq, Option.some.injEq] at h
      obtain ⟨accounts, haccounts, b', hb', rfl⟩ := h
      obtain ⟨hhash, hstate, htxns⟩ := build_eq_ok env _ b' hb'
      rw [hstate]
      exact ⟨hhash, htxns, raw, hraw, haccounts⟩

def rawAccount (nonce balance : Int) : Value Int :=
  .obj [("Nonce", .float nonce), ("Balance", .float balance),
    ("StorageRoot", .obj [("Internal", .obj [])]), ("Code", .str "")]

def rawState (accounts : List (Address × Value Int)) : SimpleKV (Value Int) :=
  accounts.foldl (fun kv e => kv.put e.1.string e.2) .new

def sampleMessage (g : Block Int) (account1 account2 : Value Int) (t : SignedTransaction Int) :
    BlockMessage Int where
  sender := "127.0.0.1:2"
  header := { g.header with parentHash := g.hash (blockEnv none), number := 1 }
  state := some (rawState [(sampleAddress 1, account1), (sampleAddress 2, account2)])
  transactions := [some t]

def appendsMessage (g : Block Int) (msg : BlockMessage Int) : Bool :=
  match blockMsgCallback (blockEnv none) sampleMiner msg.sender msg with
  | .ok (some b) =>
    (verifyBlock (blockEnv none) (.newWithGenesis (blockEnv none) g) b).1.isAppended
  | _ => false

theorem appendsMessage_spec (g : Block Int) (account1 account2 : Value Int) (t : SignedTransaction Int)
    (h : appendsMessage g (sampleMessage g account1 account2 t) = true) :
    ∃ b bc', blockMsgCallback (blockEnv none) sampleMiner "127.0.0.1:2"
        (sampleMessage g account1 account2 t) = .ok (some b) ∧
      verifyBlock (blockEnv none) (.newWithGenesis (blockEnv none) g) b = (.appended, bc') ∧
      (BlockChain.newWithGenesis (blockEnv none) g).tryAppend (blockEnv none) b = .ok g ∧
      b.transactions = [some t] := by
  unfold appendsMessage at h
  split at h
  · rename_i b hb
    have htxns := (blockMsgCallback_eq_ok _ _ _ _ b hb).2.1
    rcases hv : verifyBlock (blockEnv none) (.newWithGenesis (blockEnv none) g) b with ⟨v, bc'⟩
    rw [hv] at h
    have hv' : v = .appended := by cases v <;> simp_all [Verdict.isAppended]
    subst hv'
    obtain ⟨-, p, w, hp, -⟩ := verifyBlock_appended _ _ _ _ hv
    refine ⟨b, bc', hb, hv, ?_, htxns⟩
    rw [hp, tryAppend_eq_ok _ _ b g p rfl hp]
  · cases h

theorem genesis_of_check (f : Block Int → Bool)
    (h : (match BlockBuilder.build (blockEnv none) (sampleGenesisBuilder paymentWorld) with
      | .ok g => f g
      | _ => false) = true) :
    ∃ g, BlockBuilder.build (blockEnv none) (sampleGenesisBuilder paymentWorld) = .ok g ∧
      g.state = paymentWorld ∧ f g = true := by
  split at h
  · rename_i g hg
    exact ⟨g, hg, (build_eq_ok _ _ g hg).2.1, h⟩
  · cases h

end MarketPeer.Ledger
