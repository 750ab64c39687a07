import MarketPeer.Ledger.Holdings
import MarketPeer.Ledger.Mining

/-!
# The transactions of a received block

A receiver only replays the transactions of a block. What they need to be valid is
said here of the transactions and the accounts, holdings and contracts they find.
-/

namespace MarketPeer.Ledger

open MarketPeer.Contracts

variable {F : Type} [Float64 F]

/-! ## What an execution needs -/

/-- The accounts that a transaction names are there. The contract that a trigger calls can be decoded
and names the sender as its acceptor; its assumptions can be evaluated, and when they hold its clauses
can be too, its parties are accounts, and every action it comes to is feasible. -/
inductive Executable (env : Env F) (t : SignedTransaction F) (w : World F) : Prop
  | moved (ht : t.isTransfer) (hs : (w.account? t.sender).isSome) (hr : (w.account? t.receiver).isSome)
  | stored (ht : t.txn.type = SET_STORAGE) (hc : t.txn.toAddr.isContract = false) (hs : (w.account? t.sender).isSome)
  | created (ht : t.txn.type = CREATE_CONTRACT) (hs : (w.account? t.sender).isSome)
  | idle (ht : t.isTrigger) (s : State F) (c c₁ : Contract F) (hs : w.account? t.receiver = some s)
      (hc : env.unmarshalContract s.code = .ok c) (hacceptor : t.sender = c.acceptorAccount)
      (hvalid : c.validateAssumptions w = .ok (false, c₁))
  | ran (ht : t.isTrigger) (s : State F) (c c₁ c₂ : Contract F) (actions : List (Action F))
      (hs : w.account? t.receiver = some s) (hc : env.unmarshalContract s.code = .ok c)
      (hacceptor : t.sender = c.acceptorAccount) (hvalid : c.validateAssumptions w = .ok (true, c₁))
      (hcollect : c₁.collectActions w = .ok (actions, c₂)) (hp : (w.account? c.proposerAccount).isSome)
      (ha : (w.account? c.acceptorAccount).isSome)
      (hfeasible : FeasibleAll c.proposerAccount c.acceptorAccount actions w.holdings)

/-- The contract that a trigger calls decodes and names its sender. -/
theorem acceptor_of_plan (env : Env F) (t : SignedTransaction F) (w : World F) (plan? : Option (Plan F))
    (h : planContract env t w = .ok plan?) :
    ∃ s c, w.account? t.receiver = some s ∧ env.unmarshalContract s.code = .ok c ∧ t.sender = c.acceptorAccount := by
  simp only [planContract, Outcome.bind_eq_ok, wrapErr_eq_ok, retrieveState, World.lookup_eq_ok] at h
  obtain ⟨s, hs, c, hc, h⟩ := h
  split_ifs at h with hacceptor
  exact ⟨s, c, hs, hc, not_not.mp hacceptor⟩

theorem plan_of_agreed (env : Env F) (t : SignedTransaction F) (w : World F) (s : State F) (c c₁ c₂ : Contract F)
    (actions : List (Action F)) (hs : w.account? t.receiver = some s) (hc : env.unmarshalContract s.code = .ok c)
    (hacceptor : t.sender = c.acceptorAccount) (hvalid : c.validateAssumptions w = .ok (true, c₁))
    (hcollect : c₁.collectActions w = .ok (actions, c₂)) (hp : (w.account? c.proposerAccount).isSome)
    (ha : (w.account? c.acceptorAccount).isSome) :
    planContract env t w = .ok (some ⟨c.proposerAccount, c.acceptorAccount, actions⟩) := by
  obtain ⟨hp₁, ha₁⟩ := validateAssumptions_accounts c c₁ w true hvalid
  obtain ⟨hp₂, ha₂⟩ := collectActions_accounts c₁ c₂ w actions hcollect
  obtain ⟨sp, hsp⟩ := Option.isSome_iff_exists.mp hp
  obtain ⟨sa, hsa⟩ := Option.isSome_iff_exists.mp ha
  have hstate : retrieveState t.txn.toAddr.string w = .ok s := (World.lookup_eq_ok ..).mpr hs
  have hproposer : retrieveState c.proposerAccount w = .ok sp := (World.lookup_eq_ok ..).mpr hsp
  have haccepts : retrieveState c.acceptorAccount w = .ok sa := (World.lookup_eq_ok ..).mpr hsa
  have hsender : t.txn.fromAddr.string = c.acceptorAccount := hacceptor
  simp [planContract, hstate, hc, hsender, hvalid, hcollect, hproposer, haccepts, wrapErr, hp₂, hp₁, ha₂, ha₁]

theorem plan_of_idle (env : Env F) (t : SignedTransaction F) (w : World F) (s : State F) (c c₁ : Contract F)
    (hs : w.account? t.receiver = some s) (hc : env.unmarshalContract s.code = .ok c)
    (hacceptor : t.sender = c.acceptorAccount) (hvalid : c.validateAssumptions w = .ok (false, c₁)) :
    planContract env t w = .ok none := by
  have hstate : retrieveState t.txn.toAddr.string w = .ok s := (World.lookup_eq_ok ..).mpr hs
  have hsender : t.txn.fromAddr.string = c.acceptorAccount := hacceptor
  simp [planContract, hstate, hc, hsender, hvalid, wrapErr]

theorem executable_of_ok (env : Env F) (t : SignedTransaction F) (w : World F)
    (hok : (executeTxn env t w).1.isOk = true) : Executable env t w := by
  have heffect := executeTxn_effect env t w
  generalize executeTxn env t w = r at heffect hok
  cases heffect with
  | refused r hr => rw [hr] at hok; cases hok
  | stopped plan r r' w' ht hplan hrun hr hr' =>
    rw [hr'] at hok
    cases r <;> simp_all [wrapErr]
  | idle ht hplan =>
    obtain ⟨s, c, hs, hc, hacceptor⟩ := acceptor_of_plan env t w none hplan
    cases planned_of_plan env t w none hplan with
    | idle s' c' c₁ hs' hc' hvalid =>
      rw [hs, Option.some.injEq] at hs'
      subst hs'
      rw [hc, Outcome.ok.injEq] at hc'
      subst hc'
      exact .idle ht s c c₁ hs hc hacceptor hvalid
  | ran plan w' ht hplan hrun =>
    cases planned_of_plan env t w _ hplan with
    | agreed s c c₁ c₂ actions hs hc hacceptor hvalid hcollect hp ha =>
      exact .ran ht s c c₁ c₂ actions hs hc hacceptor hvalid hcollect hp ha
        ((runActions_isOk_iff hp ha actions).mp (by rw [hrun]; rfl))
  | created s ht hs => exact .created ht (by rw [hs]; rfl)
  | stored s ht hc hs => exact .stored ht hc (by rw [hs]; rfl)
  | moved s s' ht hs hs' => exact .moved ht (by rw [hs]; rfl) (by rw [hs']; rfl)

theorem executeTxn_trigger (env : Env F) (t : SignedTransaction F) (w : World F) (ht : t.isTrigger) :
    (executeTxn env t w).1.isOk = (doContract env t w).1.isOk := by
  have htrigger : t.txn.toAddr.isContract = true ∧ t.txn.type ≠ CREATE_CONTRACT := ht
  unfold executeTxn doExecuteTxn
  rw [if_pos htrigger]
  cases hdo : (doContract env t w).1 <;> simp [wrapFst, hdo, wrapErr]

omit [Float64 F] in
theorem lookup_of_isSome (w : World F) (key missing corrupted : String) (h : (w.account? key).isSome) :
    ∃ s, w.lookup key missing corrupted = .ok s := by
  obtain ⟨s, hs⟩ := Option.isSome_iff_exists.mp h
  exact ⟨s, (w.lookup_eq_ok key missing corrupted s).mpr hs⟩

theorem ok_of_executable (env : Env F) (t : SignedTransaction F) (w : World F) (h : Executable env t w) :
    (executeTxn env t w).1.isOk = true := by
  cases h with
  | moved ht hs hr =>
    obtain ⟨hno, hcreate, hset⟩ := ht
    obtain ⟨s, hfrom⟩ := lookup_of_isSome w t.sender "from address dont exist: %w" "from state is corrupted: %v" hs
    obtain ⟨s', hto⟩ := lookup_of_isSome w t.receiver "to address dont exist: %w" "to state is corrupted: %v" hr
    unfold SignedTransaction.sender at hfrom
    unfold SignedTransaction.receiver at hto
    simp [executeTxn, doExecuteTxn, hno, hcreate, hset, doValueTransfer, hfrom, hto, andThen, wrapFst, wrapErr]
  | stored ht hc hs =>
    obtain ⟨s, hfrom⟩ := lookup_of_isSome w t.sender "from address dont exist: %w" "from state is corrupted: %v" hs
    unfold SignedTransaction.sender at hfrom
    have hcreate : SET_STORAGE ≠ CREATE_CONTRACT := by decide
    simp [executeTxn, doExecuteTxn, hc, ht, hcreate, setStorage, hfrom, andThen, wrapFst, wrapErr]
  | created ht hs =>
    obtain ⟨s, hfrom⟩ := lookup_of_isSome w t.sender "address dont exist: %w" "state is corrupted: %v" hs
    unfold SignedTransaction.sender at hfrom
    simp [executeTxn, doExecuteTxn, ht, createContract, retrieveState, hfrom, hideErr, andThen, wrapFst, wrapErr]
  | idle ht s c c₁ hs hc hacceptor hvalid =>
    rw [executeTxn_trigger env t w ht]
    simp [doContract, plan_of_idle env t w s c c₁ hs hc hacceptor hvalid, andThen]
  | ran ht s c c₁ c₂ actions hs hc hacceptor hvalid hcollect hp ha hfeasible =>
    rw [executeTxn_trigger env t w ht]
    have hrun := (runActions_isOk_iff hp ha actions).mpr hfeasible
    rcases hr : runActions c.proposerAccount c.acceptorAccount actions w with ⟨r, w'⟩
    rw [hr] at hrun
    obtain ⟨u, rfl⟩ := (Outcome.isOk_iff _).mp hrun
    simp [doContract, plan_of_agreed env t w s c c₁ c₂ actions hs hc hacceptor hvalid hcollect hp ha, hr, andThen]

/-- `executeTxn` returns nil exactly on what is executable. -/
theorem executeTxn_isOk_iff (env : Env F) (t : SignedTransaction F) (w : World F) :
    (executeTxn env t w).1.isOk = true ↔ Executable env t w :=
  ⟨executable_of_ok env t w, ok_of_executable env t w⟩

/-! ## All transactions of a block -/

/-- Every transaction verifies and returns nil on the state that the ones before it leave. -/
def AllValid (env : Env F) (m : Miner) (w : World F) (txns : List (Option (SignedTransaction F))) : Prop :=
  ∀ before t after, txns = before ++ t :: after → ∃ t' w', t = some t' ∧ replay env w before = .ok w' ∧
    doVerifyTxn env m t' w' = .ok () ∧ (executeTxn env t' w').1.isOk = true

theorem allValid_cons_iff (env : Env F) (m : Miner) (w : World F) (t : SignedTransaction F)
    (rest : List (Option (SignedTransaction F))) :
    AllValid env m w (some t :: rest) ↔
      Accepts env m t w ∧ AllValid env m (executeTxn env t w).2 rest := by
  rw [accepts_iff]
  constructor
  · intro h
    obtain ⟨t', w', ht', hw', hv, hok⟩ := h [] (some t) rest rfl
    rw [Option.some.injEq] at ht'
    simp only [replay, Outcome.ok.injEq] at hw'
    subst ht' hw'
    refine ⟨⟨hv, hok⟩, ?_⟩
    rintro before x after rfl
    obtain ⟨x', w', hx', hw', hvalid⟩ := h (some t :: before) x after rfl
    rw [replay_cons env t before w hok] at hw'
    exact ⟨x', w', hx', hw', hvalid⟩
  · rintro ⟨⟨hv, hok⟩, hrest⟩ before x after heq
    cases before with
    | nil =>
      rw [List.nil_append, List.cons.injEq] at heq
      exact ⟨t, w, heq.1.symm, rfl, hv, hok⟩
    | cons y before =>
      rw [List.cons_append, List.cons.injEq] at heq
      obtain ⟨rfl, rfl⟩ := heq
      obtain ⟨x', w', hx', hw', hvalid⟩ := hrest before x after rfl
      exact ⟨x', w', hx', by rw [replay_cons env t before w hok]; exact hw', hvalid⟩

/-- A replay that ends has met no nil, and every part of it ends. -/
theorem replay_split (env : Env F) (w w' : World F) (before : List (Option (SignedTransaction F)))
    (x : Option (SignedTransaction F)) (after : List (Option (SignedTransaction F)))
    (h : replay env w (before ++ x :: after) = .ok w') : ∃ t w₁, x = some t ∧ replay env w before = .ok w₁ := by
  induction before generalizing w with
  | nil =>
    cases x with
    | none => simp [replay] at h
    | some t => exact ⟨t, w, rfl, rfl⟩
  | cons y before ih =>
    cases y with
    | none => simp [replay] at h
    | some y =>
      rw [List.cons_append, replay] at h
      split at h
      · cases h
      · rename_i r w₁ hno heq
        obtain ⟨t, w₂, ht, hbefore⟩ := ih w₁ h
        refine ⟨t, w₂, ht, ?_⟩
        rw [replay, heq]
        split
        · rename_i why w₃ hpanic
          exact (hno why (Prod.mk.inj hpanic).1).elim
        · rename_i hsame
          rw [← (Prod.mk.inj hsame).2]
          exact hbefore

/-- The transactions of an appended block are all valid exactly when each is signed by its sender, has
the nonce and the cover of the sender's account, and finds the accounts and the contract it needs, in
the state that the ones before it leave. -/
theorem appended_valid_iff (env : Env F) (m : Miner) (hm : m.attacker = false) (bc bc' : BlockChain F) (b p : Block F)
    (happ : verifyBlock env bc b = (.appended, bc')) (hp : bc.tryAppend env b = .ok p) :
    AllValid env m p.state b.transactions ↔
      ∀ before t after w, b.transactions = before ++ some t :: after → replay env p.state before = .ok w →
        (∃ publicKey s, Verified env t w publicKey s) ∧ Executable env t w := by
  obtain ⟨-, p', w, hp', hw, -⟩ := verifyBlock_appended env bc bc' b happ
  rw [hp, Outcome.ok.injEq] at hp'
  rw [← hp'] at hw
  constructor
  · intro hvalid before t after w hsplit hreplay
    obtain ⟨t', w', ht, hreplay', hverify, hok⟩ := hvalid before (some t) after hsplit
    rw [hreplay, Outcome.ok.injEq] at hreplay'
    rw [Option.some.injEq] at ht
    subst ht hreplay'
    exact ⟨(doVerifyTxn_eq_ok env m hm t w).mp hverify, (executeTxn_isOk_iff env t w).mp hok⟩
  · intro hall before x after hsplit
    rw [hsplit] at hw
    obtain ⟨t, w', rfl, hreplay⟩ := replay_split env _ _ before x after hw
    obtain ⟨hverified, hexec⟩ := hall before t after w' hsplit hreplay
    exact ⟨t, w', rfl, hreplay, (doVerifyTxn_eq_ok env m hm t w').mpr hverified,
      (executeTxn_isOk_iff env t w').mpr hexec⟩

theorem payment_block_valid :
    ∃ g b bc', verifyBlock (blockEnv none) (.newWithGenesis (blockEnv none) g) b = (.appended, bc') ∧
      b.transactions = [some payment] ∧ AllValid (blockEnv none) sampleMiner g.state b.transactions := by
  obtain ⟨g, -, hstate, hg⟩ := genesis_of_check
    (fun g => appendsMessage g (sampleMessage g (rawAccount 1 4) (rawAccount 0 8) payment)) (by decide +kernel)
  obtain ⟨b, bc', -, hv, hp, htxns⟩ := appendsMessage_spec g _ _ payment hg
  refine ⟨g, b, bc', hv, htxns, (appended_valid_iff (blockEnv none) sampleMiner rfl _ bc' b g hv hp).mpr ?_⟩
  intro before t after w hsplit hreplay
  rw [htxns] at hsplit
  rw [eq_comm, List.append_eq_singleton_iff] at hsplit
  obtain ⟨rfl, ht⟩ | ⟨-, hnil⟩ := hsplit
  · rw [List.cons.injEq, Option.some.injEq] at ht
    rw [replay, hstate, Outcome.ok.injEq] at hreplay
    obtain ⟨rfl, -⟩ := ht
    subst hreplay
    have hverify : (doVerifyTxn (blockEnv none) sampleMiner payment paymentWorld).isOk = true := by decide +kernel
    obtain ⟨u, hu⟩ := (Outcome.isOk_iff _).mp hverify
    refine ⟨(doVerifyTxn_eq_ok _ sampleMiner rfl _ _).mp hu, .moved ⟨?_, ?_, ?_⟩ ?_ ?_⟩
    all_goals decide +kernel
  · cases hnil

def unsignedPayment : SignedTransaction Int :=
  ⟨sampleTxn 0 (sampleAddress 2) (sampleAddress 1) EXEC_TXN 3, [], []⟩

/-- A message whose only transaction is not signed, from a genesis that was built as usual, is
appended. -/
theorem unsignedPayment_appended :
    ∃ g b bc', BlockBuilder.build (blockEnv none) (sampleGenesisBuilder paymentWorld) = .ok g ∧
      blockMsgCallback (blockEnv none) sampleMiner "127.0.0.1:2"
        (sampleMessage g (rawAccount 0 10) (rawAccount 1 2) unsignedPayment) = .ok (some b) ∧
      verifyBlock (blockEnv none) (.newWithGenesis (blockEnv none) g) b = (.appended, bc') ∧
      (BlockChain.newWithGenesis (blockEnv none) g).tryAppend (blockEnv none) b = .ok g ∧
      ¬ AllValid (blockEnv none) sampleMiner g.state b.transactions := by
  obtain ⟨g, hbuild, hstate, hg⟩ := genesis_of_check
    (fun g => appendsMessage g (sampleMessage g (rawAccount 0 10) (rawAccount 1 2) unsignedPayment))
    (by decide +kernel)
  obtain ⟨b, bc', hcallback, hv, hp, htxns⟩ := appendsMessage_spec g _ _ unsignedPayment hg
  refine ⟨g, b, bc', hbuild, hcallback, hv, hp, ?_⟩
  rw [htxns, allValid_cons_iff, accepts_iff, hstate]
  rintro ⟨⟨hverify, -⟩, -⟩
  have hnot : (doVerifyTxn (blockEnv none) sampleMiner unsignedPayment paymentWorld).isOk = false := by
    decide +kernel
  rw [hverify] at hnot
  cases hnot

end MarketPeer.Ledger
