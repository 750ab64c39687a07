import MarketPeer.Ledger.MinedTxns

/-!
# Putting transactions back

`verifyAndExecuteTxnd` is the only one that reads `txnCh`, and it sends the transactions
of a stale block into it. While it sends it does not read, so that the slots that it
needs have to be there from the start, and no callback may take one of them.
-/

namespace MarketPeer.Ledger

variable {F : Type}

/-- The transactions of a stale block that are not back in the channel yet. -/
def TxnLoop.toRequeue : TxnLoop F → List (Option (SignedTransaction F))
  | .requeueing txns => txns
  | _ => []

/-- `verifyAndExecuteTxnd` waits for a slot in the channel that only it empties. -/
def Daemons.Blocked (s : Daemons F) : Prop :=
  ∃ txn rest, s.loop = .requeueing (txn :: rest) ∧ chanSize ≤ s.txnCh.length

/-- The transactions of a mined block that fits no more. -/
def Daemons.stale (env : Env F) (s : Daemons F) : List (Option (SignedTransaction F)) :=
  match s.loop with
  | .finalized b => if (s.history.bc.tryAppend env b).isOk then [] else b.transactions
  | _ => []

/-- A stale block finds room for all its transactions, and a callback leaves room for those that
are still to come. -/
def RoomToRequeue (env : Env F) (m : Miner) (s : Daemons F) : MinerEvent F → Prop
  | .tryAppend => s.stale env = [] ∨ s.txnCh.length + (s.stale env).length ≤ chanSize
  | .walletTxn source _ => (m.attacker ∧ source ≠ m.addr) ∨ s.loop.toRequeue = [] ∨
      s.txnCh.length + s.loop.toRequeue.length < chanSize
  | _ => True

instance (env : Env F) (m : Miner) (s : Daemons F) : ∀ e, Decidable (RoomToRequeue env m s e)
  | .tryAppend | .walletTxn _ _ => instDecidableOr
  | .latestWorldState | .readTxn _ | .requeue | .ownBlock _ | .peerBlock _ _ | .takeBlock | .verifyBlock =>
    .isTrue trivial

variable [Float64 F] {env : Env F} {m : Miner} {s s' : Daemons F}

/-! ## What a step does to the channel -/

omit [Float64 F] in
theorem sendBlock_txnCh (sender : String) (r : Res F (Option (Block F))) (h : sendBlock sender r s = some s') :
    s'.loop = s.loop ∧ s'.txnCh = s.txnCh := by
  unfold sendBlock at h
  split at h
  · rw [← Option.some.inj h]; exact ⟨rfl, rfl⟩
  · rw [← Option.some.inj h]; exact ⟨rfl, rfl⟩
  · rw [← Option.some.inj h]; exact ⟨rfl, rfl⟩
  · split_ifs at h with hroom
    rw [← Option.some.inj h]; exact ⟨rfl, rfl⟩

omit [Float64 F] in
theorem checkMined_cases (h : checkMined env s = some s') :
    ∃ b, s.loop = .finalized b ∧ ((s.stale env = [] ∧ s'.loop = .top) ∨
      (s.stale env = b.transactions ∧ s' = { s with loop := .requeueing b.transactions })) := by
  unfold checkMined at h
  split at h
  · rename_i b hloop
    refine ⟨b, hloop, ?_⟩
    simp only [Daemons.stale, hloop]
    split at h
    · rename_i htry
      rw [← Option.some.inj h, htry]
      exact Or.inl ⟨rfl, rfl⟩
    · rename_i htry
      rw [← Option.some.inj h, htry]
      exact Or.inr ⟨rfl, rfl⟩
    · cases h
  · cases h

/-- A callback sends, the loop goes on without sending, the loop finds its block stale, or it puts
one transaction back; nothing else touches the two. -/
theorem daemonStep_txnCh (e : MinerEvent F) (h : daemonStep env m s e = some s') :
    (s'.loop = s.loop ∧ s'.txnCh = s.txnCh) ∨
    (∃ source txn, e = .walletTxn source txn ∧ ¬ (m.attacker ∧ source ≠ m.addr) ∧ s'.loop = s.loop ∧
      s'.txnCh = s.txnCh ++ [some txn.wire]) ∨
    (s.loop.toRequeue = [] ∧ s'.loop.toRequeue = []) ∨
    (∃ b, e = .tryAppend ∧ s.loop = .finalized b ∧ s.stale env = b.transactions ∧
      s'.loop = .requeueing b.transactions ∧ s'.txnCh = s.txnCh) ∨
    (∃ txn rest, s.txnCh.length < chanSize ∧ s.loop = .requeueing (txn :: rest) ∧
      s'.loop = .requeueing rest ∧ s'.txnCh = s.txnCh ++ [txn]) := by
  cases e with
  | walletTxn source txn =>
    simp only [daemonStep, walletTxnMsgCallback] at h
    split_ifs at h with hattacker hroom
    · rw [← Option.some.inj h]
      exact Or.inl ⟨rfl, rfl⟩
    · rw [← Option.some.inj h]
      exact Or.inr (Or.inl ⟨source, txn, rfl, hattacker, rfl, rfl⟩)
  | latestWorldState =>
    simp only [daemonStep] at h
    split at h
    · rename_i hloop _
      rw [← Option.some.inj h, hloop]
      exact Or.inr (Or.inr (Or.inl ⟨rfl, rfl⟩))
    · cases h
  | readTxn mining =>
    obtain ⟨_, _, _, _, _, hloop, _, ⟨-, _, rfl⟩ | ⟨_, rfl⟩ | ⟨_, -, rfl⟩⟩ := readTxn_cases env m mining s s' h
    all_goals rw [hloop]; exact Or.inr (Or.inr (Or.inl ⟨rfl, rfl⟩))
  | tryAppend =>
    obtain ⟨b, hloop, ⟨-, htop⟩ | ⟨hstale, rfl⟩⟩ := checkMined_cases h
    · rw [hloop, htop]
      exact Or.inr (Or.inr (Or.inl ⟨rfl, rfl⟩))
    · exact Or.inr (Or.inr (Or.inr (Or.inl ⟨b, rfl, hloop, hstale, rfl, rfl⟩)))
  | requeue =>
    simp only [daemonStep, requeue] at h
    split at h
    · rename_i hloop
      rw [← Option.some.inj h, hloop]
      exact Or.inr (Or.inr (Or.inl ⟨rfl, rfl⟩))
    · rename_i txn rest hloop
      split_ifs at h with hroom
      rw [← Option.some.inj h]
      exact Or.inr (Or.inr (Or.inr (Or.inr ⟨txn, rest, hroom, hloop, rfl, rfl⟩)))
    · cases h
  | ownBlock i =>
    simp only [daemonStep] at h
    split at h
    · exact Or.inl (sendBlock_txnCh (s := { s with broadcasting := s.broadcasting.eraseIdx i }) _ _ h)
    · cases h
  | peerBlock source msg => exact Or.inl (sendBlock_txnCh _ _ h)
  | takeBlock =>
    simp only [daemonStep] at h
    split at h
    · rw [← Option.some.inj h]
      exact Or.inl ⟨rfl, rfl⟩
    · cases h
  | verifyBlock =>
    obtain ⟨_, b, bc', -, ⟨-, rfl⟩ | ⟨v, -, -, rfl⟩⟩ := verifyTaken_eq_some env s s' h
    all_goals exact Or.inl ⟨rfl, rfl⟩

/-! ## With room -/

/-- Every transaction that is still to come has a slot. -/
def Daemons.Fits (s : Daemons F) : Prop :=
  s.loop.toRequeue = [] ∨ s.txnCh.length + s.loop.toRequeue.length ≤ chanSize

omit [Float64 F] in
theorem Daemons.Fits.not_blocked (h : s.Fits) : ¬ s.Blocked := by
  rintro ⟨txn, rest, hloop, hfull⟩
  rw [Daemons.Fits, hloop] at h
  rcases h with h | h
  · cases h
  · simp only [TxnLoop.toRequeue, List.length_cons] at h
    omega

theorem daemonStep_fits (e : MinerEvent F) (hfits : s.Fits) (hroom : RoomToRequeue env m s e)
    (h : daemonStep env m s e = some s') : s'.Fits := by
  unfold Daemons.Fits at *
  rcases daemonStep_txnCh e h with ⟨hloop, hch⟩ | ⟨source, txn, rfl, hsends, hloop, hch⟩ | ⟨-, hdone⟩ |
    ⟨b, rfl, -, hstale, hloop, hch⟩ | ⟨txn, rest, -, hloop, hloop', hch⟩
  · rwa [hloop, hch]
  · rw [hloop, hch, List.length_append, List.length_singleton]
    have hleft : s.loop.toRequeue = [] ∨ s.txnCh.length + s.loop.toRequeue.length < chanSize :=
      hroom.resolve_left hsends
    exact hleft.imp_right fun hroom => by omega
  · exact Or.inl hdone
  · rw [hloop, hch]
    rw [RoomToRequeue, hstale] at hroom
    exact hroom
  · rw [hloop', hch, List.length_append, List.length_singleton]
    rw [hloop] at hfits
    simp only [TxnLoop.toRequeue, List.length_cons, reduceCtorEq, false_or] at hfits ⊢
    omega

/-! ## Without room -/

/-- There is no way out, since nobody else reads the channel. -/
theorem daemonStep_blocked (e : MinerEvent F) (hblocked : s.Blocked) (h : daemonStep env m s e = some s') :
    s'.Blocked := by
  obtain ⟨txn, rest, hat, hfull⟩ := hblocked
  rcases daemonStep_txnCh e h with ⟨hloop, hch⟩ | ⟨source, txn', rfl, -, hloop, hch⟩ | ⟨hdone, -⟩ |
    ⟨b, rfl, hloop, -⟩ | ⟨txn', rest', hroom, -⟩
  · exact ⟨txn, rest, hloop.trans hat, hch ▸ hfull⟩
  · refine ⟨txn, rest, hloop.trans hat, ?_⟩
    rw [hch, List.length_append]
    omega
  · rw [hat] at hdone
    cases hdone
  · rw [hat] at hloop
    cases hloop
  · omega

theorem run_blocked (es : List (MinerEvent F)) (hblocked : s.Blocked)
    (hrun : run (daemonStep env m) s es = some s') : s'.Blocked :=
  run_preserves Daemons.Blocked (fun _ e _ h => daemonStep_blocked e h) es hblocked hrun

/-- With more to put back than there is room for, the loop goes on until it waits. -/
theorem requeue_blocks (txns : List (Option (SignedTransaction F))) (hne : txns ≠ [])
    (hloop : s.loop = .requeueing txns) (hmore : chanSize < s.txnCh.length + txns.length) :
    ∃ es s', run (daemonStep env m) s es = some s' ∧ s'.Blocked := by
  induction txns generalizing s with
  | nil => exact (hne rfl).elim
  | cons txn rest ih =>
    by_cases hfull : chanSize ≤ s.txnCh.length
    · exact ⟨[], s, rfl, txn, rest, hloop, hfull⟩
    · rw [List.length_cons] at hmore
      have hrest : rest ≠ [] := by
        rintro rfl
        rw [List.length_nil] at hmore
        omega
      have hstep : daemonStep env m s .requeue =
          some { s with txnCh := s.txnCh ++ [txn], loop := .requeueing rest } := by
        simp only [daemonStep, requeue, hloop]
        rw [if_pos (by omega)]
      have hmore' : chanSize < (s.txnCh ++ [txn]).length + rest.length := by
        rw [List.length_append, List.length_singleton]
        omega
      obtain ⟨es, s', hrun, hblocked⟩ :=
        ih (s := { s with txnCh := s.txnCh ++ [txn], loop := .requeueing rest }) hrest rfl hmore'
      exact ⟨.requeue :: es, s', by rw [run_cons hstep, hrun], hblocked⟩

theorem blocks_of_not_room (e : MinerEvent F) (hroom : ¬ RoomToRequeue env m s e)
    (h : daemonStep env m s e = some s') : ∃ es t, run (daemonStep env m) s' es = some t ∧ t.Blocked := by
  cases e with
  | walletTxn source txn =>
    simp only [RoomToRequeue, not_or] at hroom
    obtain ⟨hsends, hne, hmore⟩ := hroom
    simp only [daemonStep, walletTxnMsgCallback] at h
    rw [if_neg hsends] at h
    split_ifs at h
    cases hloop : s.loop with
    | requeueing txns =>
      rw [hloop] at hne hmore
      refine requeue_blocks txns hne ?_ ?_
      · rw [← Option.some.inj h]
        exact hloop
      · rw [← Option.some.inj h, List.length_append, List.length_singleton]
        simp only [TxnLoop.toRequeue] at hmore
        omega
    | _ =>
      rw [hloop] at hne
      exact (hne rfl).elim
  | tryAppend =>
    simp only [RoomToRequeue, not_or] at hroom
    obtain ⟨hne, hmore⟩ := hroom
    obtain ⟨b, -, ⟨hfine, -⟩ | ⟨hstale, rfl⟩⟩ := checkMined_cases h
    · exact (hne hfine).elim
    · rw [hstale] at hne hmore
      exact requeue_blocks b.transactions hne rfl (Nat.lt_of_not_le hmore)
  | _ => exact (hroom trivial).elim

/-- While every step leaves room for what has to go back, the loop never waits for itself. A step
that does not leads to a state from which it waits for ever. -/
theorem requeue_never_blocks (env : Env F) (m : Miner) (bootstrap : ChainHistory F) (es : List (MinerEvent F))
    (s : Daemons F) (hrun : run (daemonStep env m) (.start bootstrap) es = some s) :
    (Meets (daemonStep env m) (RoomToRequeue env m) (.start bootstrap) es → ¬ s.Blocked) ∧
    ∀ e s', daemonStep env m s e = some s' → ¬ RoomToRequeue env m s e →
      ∃ es' t, run (daemonStep env m) s' es' = some t ∧
        ∀ later t', run (daemonStep env m) t later = some t' → t'.Blocked := by
  constructor
  · intro hroom
    have hinit : (Daemons.start bootstrap : Daemons F).Fits := Or.inl rfl
    exact (run_invariant Daemons.Fits (fun _ e _ => daemonStep_fits e) es hinit hroom hrun).not_blocked
  · intro e s' hstep hroom
    obtain ⟨es', t, hrun', hblocked⟩ := blocks_of_not_room e hroom hstep
    exact ⟨es', t, hrun', fun later t' => run_blocked later hblocked⟩

/-- Another miner is faster, so that the own block is stale; `n` payments come in before that is
found out. -/
def staleWithPayments (n : Nat) (g : Block Int) : List (MinerEvent Int) :=
  [.walletTxn "127.0.0.1:3" payment, .latestWorldState, .readTxn sampleMining,
    .peerBlock "127.0.0.1:2" (competingMessage g), .takeBlock, .verifyBlock] ++
  List.replicate n (.walletTxn "127.0.0.1:3" payment) ++ [.tryAppend]

/-- With one more payment the stale one still goes back. -/
theorem requeue_never_blocks_payment :
    ∃ g s, run (daemonStep (blockEnv none) sampleMiner) (.start (.genesis (blockEnv none) g))
        (staleWithPayments 1 g) = some s ∧ s.loop.toRequeue.length = 1 ∧ ¬ s.Blocked := by
  obtain ⟨g, -, -, hg⟩ := genesis_of_check
    (fun g => decide (Meets (daemonStep (blockEnv none) sampleMiner)
        (RoomToRequeue (blockEnv none) sampleMiner) (.start (.genesis (blockEnv none) g))
        (staleWithPayments 1 g)) &&
      (run (daemonStep (blockEnv none) sampleMiner) (.start (.genesis (blockEnv none) g))
        (staleWithPayments 1 g)).any fun s : Daemons Int => decide (s.loop.toRequeue.length = 1))
    (by decide +kernel)
  rw [Bool.and_eq_true, decide_eq_true_eq] at hg
  obtain ⟨s, hrun, hs⟩ := (Option.any_eq_true _ _).mp hg.2
  rw [decide_eq_true_eq] at hs
  exact ⟨g, s, hrun, hs, (requeue_never_blocks _ _ _ _ s hrun).1 hg.1⟩

/-- With a full channel it does not. -/
theorem requeue_blocks_payment :
    ∃ g s, BlockBuilder.build (blockEnv none) (sampleGenesisBuilder paymentWorld) = .ok g ∧
      run (daemonStep (blockEnv none) sampleMiner) (.start (.genesis (blockEnv none) g))
        (staleWithPayments 100 g) = some s ∧ s.Blocked := by
  obtain ⟨g, hbuild, -, hg⟩ := genesis_of_check
    (fun g => (run (daemonStep (blockEnv none) sampleMiner) (.start (.genesis (blockEnv none) g))
      (staleWithPayments 100 g)).any fun s : Daemons Int =>
        decide (s.loop.toRequeue.length = 1 ∧ s.txnCh.length = 100)) (by decide +kernel)
  obtain ⟨s, hrun, hs⟩ := (Option.any_eq_true _ _).mp hg
  rw [decide_eq_true_eq] at hs
  refine ⟨g, s, hbuild, hrun, ?_⟩
  cases hloop : s.loop with
  | requeueing txns =>
    rw [hloop] at hs
    obtain ⟨txn, rfl⟩ := List.length_eq_one_iff.mp hs.1
    exact ⟨txn, [], hloop, Nat.le_of_eq hs.2.symm⟩
  | _ =>
    rw [hloop] at hs
    exact absurd hs.1 Nat.zero_ne_one

end MarketPeer.Ledger
