import MarketPeer.Ledger.Daemons

/-!
# No mined transaction is lost

The transactions that a miner still has: in a channel, in a daemon's hands, in a block on
its way, or in the chain. A step moves them from one place to another. Two steps
can drop one: the loop that reads it again, and `verifyBlockd` on a block that it
does not append.
-/

namespace MarketPeer.Ledger

variable {F : Type}

/-! ## Places -/

/-- The transactions in the hands of `verifyAndExecuteTxnd`. -/
def TxnLoop.held : TxnLoop F → List (Option (SignedTransaction F))
  | .top => []
  | .collecting _ verifiedTxns _ => verifiedTxns.map some
  | .finalized newBlock => newBlock.transactions
  | .requeueing txns => txns

/-- Where a transaction can be: `txnCh`, the transaction loop, a block that is being broadcast, waits in
`blockCh` or is in `verifyBlockd`, or a block of the chain. -/
def Daemons.places (s : Daemons F) : List (Option (SignedTransaction F)) :=
  s.txnCh ++ s.loop.held ++
    (s.broadcasting ++ (s.blockCh ++ s.verifying.toList).map Prod.snd ++ s.history.blocks).flatMap Block.transactions

/-- The blocks on their way that came back from the miner itself. -/
def Daemons.returning (m : Miner) (s : Daemons F) : List (Block F) :=
  ((s.blockCh ++ s.verifying.toList).filter (·.1 = m.addr)).map Prod.snd

/-- The places that the miner's own transactions take. -/
def Daemons.ownPlaces (m : Miner) (s : Daemons F) : List (Option (SignedTransaction F)) :=
  s.txnCh ++ s.loop.held ++ (s.broadcasting ++ s.returning m ++ s.history.blocks).flatMap Block.transactions

theorem Daemons.mem_ownPlaces (m : Miner) (s : Daemons F) (x : Option (SignedTransaction F)) :
    x ∈ s.ownPlaces m ↔ x ∈ s.txnCh ∨ x ∈ s.loop.held ∨
      x ∈ (s.broadcasting ++ s.returning m ++ s.history.blocks).flatMap Block.transactions := by
  simp only [ownPlaces, List.mem_append, or_assoc]

theorem Daemons.ownPlaces_subset (m : Miner) (s : Daemons F) : s.ownPlaces m ⊆ s.places := by
  have hsub : s.returning m ⊆ (s.blockCh ++ s.verifying.toList).map Prod.snd :=
    List.map_subset _ (List.filter_subset_self ..)
  intro x hx
  simp only [ownPlaces, places, List.flatMap_append, List.mem_append] at hx ⊢
  rcases hx with hx | (hx | hx) | hx
  · exact Or.inl hx
  · exact Or.inr (Or.inl (Or.inl hx))
  · obtain ⟨b, hb, hx⟩ := List.mem_flatMap.mp hx
    have hmem := List.mem_flatMap.mpr ⟨b, hsub hb, hx⟩
    simp only [List.map_append, List.flatMap_append, List.mem_append] at hmem
    exact Or.inr (Or.inl (Or.inr (by simpa using hmem)))
  · exact Or.inr (Or.inr hx)

variable [Float64 F]

/-! ## The channel and the loop -/

/-- Reading one transaction after the other until a block is done is `verifyAndExecuteTxnLoop` on them. -/
theorem finalized_eq_loop (env : Env F) (m : Miner) (mining : Mining) (lastBlock b : Block F)
    (kept txns : List (SignedTransaction F)) (rest : List (Option (SignedTransaction F))) (w : World F)
    (s s' : Daemons F) (hloop : s.loop = .collecting lastBlock kept w) (hch : s.txnCh = txns.map some ++ rest)
    (hrun : run (fun s _ => readTxn env m mining s) s txns = some s') (hb : s'.loop = .finalized b) :
    verifyAndExecuteTxnLoop env m mining lastBlock kept txns w = some (.ok b) ∧ s'.txnCh = rest := by
  induction txns generalizing s kept w with
  | nil =>
    simp only [run, Option.some.injEq] at hrun
    rw [← hrun, hloop] at hb
    cases hb
  | cons t txns ih =>
    simp only [run, Option.bind_eq_some_iff] at hrun
    obtain ⟨s1, hstep, hrun⟩ := hrun
    unfold readTxn at hstep
    rw [hloop, hch, List.map_cons, List.cons_append] at hstep
    unfold verifyAndExecuteTxnLoop
    rcases hoffer : offer env m t w with ⟨r, w'⟩
    simp only [hoffer] at hstep ⊢
    cases r with
    | panic why => cases hstep
    | err e =>
      rw [Option.some.injEq] at hstep
      subst hstep
      exact ih kept w' _ rfl rfl hrun
    | ok u =>
      dsimp only at hstep ⊢
      split_ifs at hstep ⊢ with hfull
      · rw [Option.some.injEq] at hstep
        subst hstep
        exact ih _ w' _ rfl rfl hrun
      · split at hstep
        · rename_i b' hpow
          rw [Option.some.injEq] at hstep
          subst hstep
          -- Out of the loop, there is nothing to read for the rest of the list.
          cases txns with
          | nil =>
            simp only [run, Option.some.injEq] at hrun
            subst hrun
            rw [TxnLoop.finalized.injEq] at hb
            subst hb
            exact ⟨hpow, rfl⟩
          | cons t' txns => simp [run, readTxn] at hrun
        · cases hstep

/-! ## The way back of an own block -/

theorem rebuildAccount_errless (v : Value F) : (rebuildAccount v).Errless := by
  have hfloat : ∀ v : Value F, (asFloat v).Errless := by
    intro v
    unfold asFloat
    split
    · exact Outcome.errless_ok _
    · exact Outcome.errless_panic _
  have hobject : ∀ v : Value F, (asObject v).Errless := by
    intro v
    unfold asObject
    split
    · exact Outcome.errless_ok _
    · exact Outcome.errless_panic _
  have hstring : ∀ v : Value F, (asString v).Errless := by
    intro v
    unfold asString
    split
    · exact Outcome.errless_ok _
    · exact Outcome.errless_panic _
  unfold rebuildAccount
  apply Outcome.errless_bind _ _ (hobject _)
  intro fields
  apply Outcome.errless_bind _ _ (hfloat _)
  intro nonce
  apply Outcome.errless_bind _ _ (hfloat _)
  intro balance
  apply Outcome.errless_bind _ _ (hstring _)
  intro code
  apply Outcome.errless_bind _ _ (hobject _)
  intro root
  apply Outcome.errless_bind _ _ (hobject _)
  intro internal
  exact Outcome.errless_ok _

omit [Float64 F] in
theorem hash_errless {V : Type} (env : Env F) (json : V → Option String) (kv : SimpleKV V) :
    (kv.hash env json).Errless := by
  unfold SimpleKV.hash
  cases kv.preimage json with
  | none => exact Outcome.errless_panic _
  | some bs => exact Outcome.errless_ok _

theorem build_errless (env : Env F) (bb : BlockBuilder F) : (bb.build env).Errless := by
  unfold BlockBuilder.build
  apply Outcome.errless_bind _ _ (hash_errless env _ _)
  intro stateHash
  apply Outcome.errless_bind _ _ (hash_errless env _ _)
  intro receiptsHash
  exact Outcome.errless_ok _

theorem rebuildState_errless (raw : SimpleKV (Value F)) : (rebuildState raw).Errless := by
  unfold rebuildState
  apply Outcome.errless_foldlM
  intro accounts e
  apply Outcome.errless_bind _ _ (rebuildAccount_errless e.2)
  intro s
  exact Outcome.errless_ok _

/-- An own block comes back with its transactions, or its delivery ends the process. -/
theorem receiveOwn_cases (env : Env F) (m : Miner) (b : Block F) :
    (∃ why, receiveOwn env m b = .panic why) ∨
      ∃ b', receiveOwn env m b = .ok (some b') ∧
        b'.transactions = b.transactions.map (Option.map SignedTransaction.wire) := by
  unfold receiveOwn Block.message decodeBlockState decodeKV
  simp only [Outcome.ok_bind, Outcome.pure_eq, blockMsgCallback, ne_eq, not_true, and_false, if_false]
  cases hstate : rebuildState b.state.wire with
  | err e => exact (rebuildState_errless _ e hstate).elim
  | panic why => exact Or.inl ⟨why, rfl⟩
  | ok accounts =>
    simp only [Outcome.ok_bind]
    generalize hbb : ({ BlockBuilder.setHeader _ b.header with state := accounts } : BlockBuilder F) = bb
    cases hbuild : BlockBuilder.build env bb with
    | err e => exact (build_errless env bb e hbuild).elim
    | panic why => exact Or.inl ⟨why, rfl⟩
    | ok b' =>
      refine Or.inr ⟨b', rfl, ?_⟩
      rw [(build_eq_ok env bb b' hbuild).2.2, ← hbb]
      rfl

/-! ## Steps that drop nothing -/

/-- The checks of `verifyBlockd`, on the chain as it is when the block is taken up. -/
structure Passes (env : Env F) (bc : BlockChain F) (b : Block F) : Prop where
  work : (powValid env b : Res F Bool) = .ok true
  replays : ∃ p w, bc.tryAppend env b = .ok p ∧ replay env p.state b.transactions = .ok w ∧
    World.hash env w = .ok b.header.stateHash

/-- The chain has the transaction. -/
def Daemons.HasTxn (s : Daemons F) (t : SignedTransaction F) : Prop :=
  some t ∈ s.history.blocks.flatMap Block.transactions

/-- What the miner refuses of its own is in the chain already: a mined transaction that the loop reads again,
or the mined transactions of an own block that `verifyBlockd` takes. And the callback does not panic on an
own block. -/
def DropsNone (env : Env F) (m : Miner) (s : Daemons F) : MinerEvent F → Prop
  | .readTxn _ => ∀ lastBlock txns w t rest, s.loop = .collecting lastBlock txns w → s.txnCh = some t :: rest →
      t ∈ s.mined → Accepts env m t w ∨ s.HasTxn t
  | .ownBlock i => ∀ b, s.broadcasting[i]? = some b → ¬ (receiveOwn env m b).Panics
  | .verifyBlock => ∀ b, s.verifying = some (m.addr, b) → Passes env s.history.bc b ∨
      ∀ t ∈ s.mined, some t ∈ b.transactions → s.HasTxn t
  | _ => True

omit [Float64 F] in
theorem append_of_tryAppend (env : Env F) (bc : BlockChain F) (b p : Block F) (h : bc.tryAppend env b = .ok p) :
    ∃ bc', bc.append env b = (.ok (), bc') := by
  unfold BlockChain.tryAppend at h
  rw [Outcome.bind_eq_ok] at h
  obtain ⟨last, hlast, h⟩ := h
  unfold BlockChain.append
  rw [hlast]
  dsimp only at h ⊢
  split_ifs at h ⊢ with hnew hnumber hold
  · split at h <;> cases h
  · split at h
    · exact ⟨_, rfl⟩
    · cases h

theorem verifyBlock_of_passes (env : Env F) (bc : BlockChain F) (b : Block F) (h : Passes env bc b) :
    ∃ bc', verifyBlock env bc b = (.appended, bc') := by
  obtain ⟨p, w, hp, hw, hhash⟩ := h.replays
  obtain ⟨bc', happend⟩ := append_of_tryAppend env bc b p hp
  refine ⟨bc', ?_⟩
  unfold verifyBlock
  simp only [h.work, hp, hw, hhash, happend, Outcome.ok_bind, ne_eq, not_true, if_false]

theorem readTxn_cases (env : Env F) (m : Miner) (mining : Mining) (s s' : Daemons F)
    (h : readTxn env m mining s = some s') :
    ∃ lastBlock txns w t rest, s.loop = .collecting lastBlock txns w ∧ s.txnCh = some t :: rest ∧
      ((¬ Accepts env m t w ∧ ∃ w', s' = { s with txnCh := rest, loop := .collecting lastBlock txns w' }) ∨
      (∃ w', s' = { s with txnCh := rest, loop := .collecting lastBlock (txns ++ [t]) w' }) ∨
      ∃ b, b.transactions = (txns ++ [t]).map some ∧
        s' = { s with txnCh := rest, loop := .finalized b, mined := s.mined ++ (txns ++ [t]) }) := by
  unfold readTxn at h
  split at h
  · rename_i lastBlock txns w t rest hloop hch
    refine ⟨lastBlock, txns, w, t, rest, hloop, hch, ?_⟩
    split at h
    · cases h
    · rename_i hoffer
      refine Or.inl ⟨?_, _, (Option.some.inj h).symm⟩
      rw [Accepts, hoffer]
      simp
    · dsimp only at h
      split_ifs at h with hfull
      · exact Or.inr (Or.inl ⟨_, (Option.some.inj h).symm⟩)
      · split at h
        · rename_i b hpow
          obtain ⟨nonce, hb, -⟩ := blockPoW_eq_ok env _ _ _ b hpow
          exact Or.inr (Or.inr ⟨b, (build_eq_ok env _ b hb).2.2, (Option.some.inj h).symm⟩)
        · cases h
  · cases h

omit [Float64 F] in
theorem requeue_eq_some (s s' : Daemons F) (h : requeue s = some s') :
    (s.loop = .requeueing [] ∧ s' = { s with loop := .top }) ∨
      ∃ x rest, s.loop = .requeueing (x :: rest) ∧
        s' = { s with txnCh := s.txnCh ++ [x], loop := .requeueing rest } := by
  unfold requeue at h
  split at h
  · rename_i hloop
    exact Or.inl ⟨hloop, (Option.some.inj h).symm⟩
  · rename_i x rest hloop
    split_ifs at h with hroom
    exact Or.inr ⟨x, rest, hloop, (Option.some.inj h).symm⟩
  · cases h

theorem verifyTaken_eq_some (env : Env F) (s s' : Daemons F) (h : verifyTaken env s = some s') :
    ∃ sender b bc', s.verifying = some (sender, b) ∧
      ((verifyBlock env s.history.bc b = (.appended, bc') ∧
        s' = { s with verifying := none, history := ⟨bc', b :: s.history.blocks⟩ }) ∨
      (∃ v, verifyBlock env s.history.bc b = (v, bc') ∧ v.isAppended = false ∧
        s' = { s with verifying := none, history := ⟨bc', s.history.blocks⟩ })) := by
  unfold verifyTaken at h
  split at h
  · cases h
  · rename_i sender b hb
    split at h
    · cases h
    · cases h
    · rename_i bc' hv
      exact ⟨sender, b, bc', hb, Or.inl ⟨hv, (Option.some.inj h).symm⟩⟩
    · rename_i v bc' hcrash hcatch happ hv
      refine ⟨sender, b, bc', hb, Or.inr ⟨v, hv, ?_, (Option.some.inj h).symm⟩⟩
      cases v with
      | appended => exact (happ rfl).elim
      | _ => rfl

omit [Float64 F] in
theorem sendBlock_history (sender : String) (r : Res F (Option (Block F))) (s s' : Daemons F)
    (h : sendBlock sender r s = some s') : s'.history = s.history := by
  unfold sendBlock at h
  split at h
  · rw [← Option.some.inj h]
  · rw [← Option.some.inj h]
  · rw [← Option.some.inj h]
  · split_ifs at h with hroom
    rw [← Option.some.inj h]

/-- Only `verifyBlockd` writes the chain. -/
theorem daemonStep_history (env : Env F) (m : Miner) (s s' : Daemons F) (e : MinerEvent F)
    (h : daemonStep env m s e = some s') : s'.history = s.history ∨ verifyTaken env s = some s' := by
  cases e with
  | walletTxn source txn =>
    simp only [daemonStep, walletTxnMsgCallback] at h
    split_ifs at h <;> exact Or.inl (by rw [← Option.some.inj h])
  | latestWorldState =>
    simp only [daemonStep] at h
    split at h
    · exact Or.inl (by rw [← Option.some.inj h])
    · cases h
  | readTxn mining =>
    obtain ⟨_, _, _, _, _, _, _, ⟨-, _, rfl⟩ | ⟨_, rfl⟩ | ⟨_, -, rfl⟩⟩ := readTxn_cases env m mining s s' h
    all_goals exact Or.inl rfl
  | tryAppend =>
    simp only [daemonStep, checkMined] at h
    split at h
    · split at h
      · exact Or.inl (by rw [← Option.some.inj h])
      · exact Or.inl (by rw [← Option.some.inj h])
      · cases h
    · cases h
  | requeue =>
    rcases requeue_eq_some s s' h with ⟨-, rfl⟩ | ⟨x, rest, -, rfl⟩
    all_goals exact Or.inl rfl
  | ownBlock i =>
    simp only [daemonStep] at h
    split at h
    · rw [sendBlock_history _ _ _ s' h]
      exact Or.inl rfl
    · cases h
  | peerBlock source msg => exact Or.inl (sendBlock_history _ _ s s' h)
  | takeBlock =>
    simp only [daemonStep] at h
    split at h
    · exact Or.inl (by rw [← Option.some.inj h])
    · cases h
  | verifyBlock => exact Or.inr h

/-- The recorded blocks are the chain, whatever the daemons do. -/
theorem daemons_represent (env : Env F) (m : Miner) (bootstrap : ChainHistory F) (es : List (MinerEvent F))
    (s : Daemons F) (hchain : Represents env bootstrap.bc bootstrap.blocks)
    (hrun : run (daemonStep env m) (.start bootstrap) es = some s) :
    Represents env s.history.bc s.history.blocks := by
  refine run_preserves (fun s => Represents env s.history.bc s.history.blocks) ?_ es hchain hrun
  intro s e s' hrep hstep
  rcases daemonStep_history env m s s' e hstep with hsame | hverify
  · rw [hsame]
    exact hrep
  · obtain ⟨sender, b, bc', -, ⟨happ, rfl⟩ | ⟨v, hv, hnot, rfl⟩⟩ := verifyTaken_eq_some env s s' hverify
    · obtain ⟨-, _, _, -, -, -, happend⟩ := verifyBlock_appended env s.history.bc bc' b happ
      have hnext := append_represents env s.history b hrep
      unfold ChainHistory.append at hnext
      rw [happend] at hnext
      exact hnext
    · obtain ⟨last, rest, hblocks⟩ := List.exists_cons_of_ne_nil hrep.nonempty
      have hends : s.history.bc.ends = [last] := by
        rw [hrep.ends, hblocks]
        rfl
      rw [verifyBlock_not_appended env s.history.bc bc' b last v hends hv hnot]
      exact hrep

/-! ## The invariant -/

/-- Transactions on their way to an own block. -/
def Daemons.own (s : Daemons F) : List (Option (SignedTransaction F)) :=
  s.txnCh ++ s.loop.held ++ s.broadcasting.flatMap Block.transactions

/-- Own transactions came out of the decoder, so another round through it changes nothing. -/
structure Retains (m : Miner) (s : Daemons F) : Prop where
  mined : ∀ t ∈ s.mined, some t ∈ s.ownPlaces m
  decoded : ∀ x ∈ s.own, Option.map SignedTransaction.wire x = x

theorem Retains.of_moved {m : Miner} {s s' : Daemons F} (h : Retains m s) (hmined : s'.mined = s.mined)
    (hplaces : ∀ t ∈ s.mined, some t ∈ s.ownPlaces m → some t ∈ s'.ownPlaces m)
    (hown : ∀ x ∈ s'.own, x ∈ s.own ∨ Option.map SignedTransaction.wire x = x) : Retains m s' where
  mined t ht := by
    rw [hmined] at ht
    exact hplaces t ht (h.mined t ht)
  decoded x hx := by
    rcases hown x hx with hx | hx
    · exact h.decoded x hx
    · exact hx

omit [Float64 F] in
theorem Daemons.HasTxn.ownPlaces {s : Daemons F} {t : SignedTransaction F} (h : s.HasTxn t) (m : Miner) :
    some t ∈ s.ownPlaces m := by
  rw [Daemons.mem_ownPlaces, List.flatMap_append]
  exact Or.inr (Or.inr (List.mem_append_right _ h))

theorem walletTxn_retains (m : Miner) (source : String) (txn : SignedTransaction F) (s s' : Daemons F)
    (hinv : Retains m s) (h : walletTxnMsgCallback m source txn s = some s') : Retains m s' := by
  unfold walletTxnMsgCallback at h
  split_ifs at h with hattacker hroom
  · rw [← Option.some.inj h]
    exact hinv
  · rw [← Option.some.inj h]
    refine hinv.of_moved rfl ?_ ?_
    · intro t _
      simp only [Daemons.mem_ownPlaces, Daemons.returning, List.mem_append]
      tauto
    · intro x
      simp only [Daemons.own, List.mem_append, List.mem_singleton]
      rintro (((hx | rfl) | hx) | hx)
      · exact Or.inl (Or.inl (Or.inl hx))
      · exact Or.inr (by simp)
      · exact Or.inl (Or.inl (Or.inr hx))
      · exact Or.inl (Or.inr hx)

theorem readTxn_retains (env : Env F) (m : Miner) (mining : Mining) (s s' : Daemons F) (hinv : Retains m s)
    (hdrops : DropsNone env m s (.readTxn mining)) (h : readTxn env m mining s = some s') : Retains m s' := by
  obtain ⟨lastBlock, txns, w, t, rest, hloop, hch, hcases⟩ := readTxn_cases env m mining s s' h
  rcases hcases with ⟨hrejected, w', rfl⟩ | ⟨w', rfl⟩ | ⟨b, hb, rfl⟩
  · -- Dropped: the chain has it, or it was never mined.
    refine hinv.of_moved rfl ?_ ?_
    · intro x hx hplace
      by_cases heq : x = t
      · subst heq
        have hchain := (hdrops lastBlock txns w x rest hloop hch hx).resolve_left hrejected
        exact Daemons.HasTxn.ownPlaces (s := { s with txnCh := rest, loop := .collecting lastBlock txns w' }) hchain m
      · simpa only [Daemons.mem_ownPlaces, Daemons.returning, hloop, hch, TxnLoop.held, List.mem_cons,
          Option.some.injEq, heq, false_or] using hplace
    · intro x hx
      simp only [Daemons.own, hloop, hch, TxnLoop.held, List.mem_append, List.mem_cons] at hx ⊢
      tauto
  · refine hinv.of_moved rfl ?_ ?_
    · intro x _
      simp only [Daemons.mem_ownPlaces, Daemons.returning, hloop, hch, TxnLoop.held, List.mem_cons, List.map_append,
        List.mem_append, List.map_cons, List.map_nil, List.not_mem_nil, or_false]
      tauto
    · intro x hx
      simp only [Daemons.own, hloop, hch, TxnLoop.held, List.mem_append, List.mem_cons, List.map_append,
        List.map_cons, List.map_nil, List.not_mem_nil, or_false] at hx ⊢
      tauto
  · refine ⟨?_, ?_⟩
    · intro x hx
      rcases List.mem_append.mp hx with hx | hx
      · have hplace := hinv.mined x hx
        simp only [Daemons.mem_ownPlaces, Daemons.returning, hloop, hch, TxnLoop.held, hb, List.mem_cons,
          List.map_append, List.mem_append, List.map_cons, List.map_nil, List.not_mem_nil, or_false] at hplace ⊢
        tauto
      · rw [Daemons.mem_ownPlaces]
        refine Or.inr (Or.inl ?_)
        change some x ∈ b.transactions
        rw [hb]
        exact List.mem_map_of_mem hx
    · intro x hx
      apply hinv.decoded
      simp only [Daemons.own, hloop, hch, TxnLoop.held, hb, List.mem_append, List.mem_cons, List.map_append,
        List.map_cons, List.map_nil, List.not_mem_nil, or_false] at hx ⊢
      tauto

theorem checkMined_retains (env : Env F) (m : Miner) (s s' : Daemons F) (hinv : Retains m s)
    (h : checkMined env s = some s') : Retains m s' := by
  unfold checkMined at h
  split at h
  · rename_i b hloop
    split at h
    · rw [← Option.some.inj h]
      refine hinv.of_moved rfl ?_ ?_
      · intro t _
        simp only [Daemons.mem_ownPlaces, Daemons.returning, hloop, TxnLoop.held, List.flatMap_append, List.mem_append,
          List.flatMap_cons, List.flatMap_nil, List.append_nil, List.not_mem_nil, false_or]
        tauto
      · intro x
        simp only [Daemons.own, hloop, TxnLoop.held, List.flatMap_append, List.mem_append, List.flatMap_cons,
          List.flatMap_nil, List.append_nil]
        tauto
    · rw [← Option.some.inj h]
      refine hinv.of_moved rfl ?_ ?_
      · intro t _
        simp only [Daemons.mem_ownPlaces, Daemons.returning, hloop, TxnLoop.held, imp_self]
      · intro x
        simp only [Daemons.own, hloop, TxnLoop.held]
        exact Or.inl
    · cases h
  · cases h

theorem requeue_retains (m : Miner) (s s' : Daemons F) (hinv : Retains m s) (h : requeue s = some s') :
    Retains m s' := by
  rcases requeue_eq_some s s' h with ⟨hloop, rfl⟩ | ⟨x, rest, hloop, rfl⟩
  · refine hinv.of_moved rfl ?_ ?_
    · intro t _
      simp only [Daemons.mem_ownPlaces, Daemons.returning, hloop, TxnLoop.held, imp_self]
    · intro x
      simp only [Daemons.own, hloop, TxnLoop.held]
      exact Or.inl
  · refine hinv.of_moved rfl ?_ ?_
    · intro t _
      simp only [Daemons.mem_ownPlaces, Daemons.returning, hloop, TxnLoop.held, List.mem_append, List.mem_cons,
        List.not_mem_nil, or_false]
      tauto
    · intro y
      simp only [Daemons.own, hloop, TxnLoop.held, List.mem_append, List.mem_cons, List.not_mem_nil, or_false]
      tauto

omit [Float64 F] in
theorem mem_returning (m : Miner) (s : Daemons F) (b : Block F) :
    b ∈ s.returning m ↔ (m.addr, b) ∈ s.blockCh ∨ s.verifying = some (m.addr, b) := by
  simp only [Daemons.returning, List.mem_map, List.mem_filter, List.mem_append, Option.mem_toList,
    decide_eq_true_eq]
  constructor
  · rintro ⟨⟨sender, c⟩, ⟨hc, hsender⟩, rfl⟩
    dsimp only at hsender
    rw [hsender] at hc
    exact hc
  · intro hc
    exact ⟨(m.addr, b), ⟨hc, rfl⟩, rfl⟩

omit [Float64 F] in
/-- Own blocks may move between the places of blocks. -/
theorem ownPlaces_of_blocks (m : Miner) (s : Daemons F) {broadcasting : List (Block F)}
    {blockCh : List (String × Block F)} {verifying : Option (String × Block F)}
    {history : ChainHistory F} (x : Option (SignedTransaction F))
    (hblocks : ∀ b, b ∈ s.broadcasting ∨ (m.addr, b) ∈ s.blockCh ∨ s.verifying = some (m.addr, b) ∨
        b ∈ s.history.blocks →
      x ∈ b.transactions → ∃ b', (b' ∈ broadcasting ∨ (m.addr, b') ∈ blockCh ∨ verifying = some (m.addr, b') ∨
        b' ∈ history.blocks) ∧ x ∈ b'.transactions)
    (hx : x ∈ s.ownPlaces m) : x ∈ { s with broadcasting, blockCh, verifying, history }.ownPlaces m := by
  rw [Daemons.mem_ownPlaces, List.mem_flatMap] at hx ⊢
  rcases hx with hx | hx | ⟨b, hb, hx⟩
  · exact Or.inl hx
  · exact Or.inr (Or.inl hx)
  · simp only [List.mem_append, mem_returning, or_assoc] at hb ⊢
    exact Or.inr (Or.inr (hblocks b hb hx))

theorem sendBlock_retains (m : Miner) (sender : String) (r : Res F (Option (Block F))) (s s' : Daemons F)
    (hinv : Retains m s) (h : sendBlock sender r s = some s') : Retains m s' := by
  unfold sendBlock at h
  split at h
  · rw [← Option.some.inj h]; exact hinv
  · rw [← Option.some.inj h]; exact hinv
  · rw [← Option.some.inj h]; exact hinv
  · split_ifs at h with hroom
    rw [← Option.some.inj h]
    refine hinv.of_moved rfl ?_ (fun x hx => Or.inl hx)
    intro t _
    refine ownPlaces_of_blocks m s _ ?_
    intro b hb hx
    refine ⟨b, ?_, hx⟩
    rw [List.mem_append]
    tauto

theorem ownBlock_retains (env : Env F) (m : Miner) (i : Nat) (b : Block F) (s s' : Daemons F) (hinv : Retains m s)
    (hi : s.broadcasting[i]? = some b) (hpanic : ¬ (receiveOwn env m b).Panics)
    (h : sendBlock m.addr (receiveOwn env m b) { s with broadcasting := s.broadcasting.eraseIdx i } = some s') :
    Retains m s' := by
  have hmem : b ∈ s.broadcasting := List.mem_of_getElem? hi
  obtain ⟨b', hb', htxns⟩ := (receiveOwn_cases env m b).resolve_left hpanic
  -- The decoder leaves the transactions of the block as they are.
  have hsame : b'.transactions = b.transactions := by
    have hid : ∀ x ∈ b.transactions, Option.map SignedTransaction.wire x = id x := by
      intro x hx
      apply hinv.decoded
      exact List.mem_append_right _ (List.mem_flatMap.mpr ⟨b, hmem, hx⟩)
    rw [htxns, List.map_congr_left hid, List.map_id]
  rw [hb'] at h
  unfold sendBlock at h
  dsimp only at h
  split_ifs at h with hroom
  rw [← Option.some.inj h]
  refine hinv.of_moved rfl ?_ ?_
  · intro t _
    refine ownPlaces_of_blocks m s _ ?_
    intro c hc hx
    by_cases heq : c = b
    · refine ⟨b', Or.inr (Or.inl ?_), ?_⟩
      · exact List.mem_append_right _ (List.mem_singleton.mpr rfl)
      · rw [hsame, ← heq]
        exact hx
    · refine ⟨c, ?_, hx⟩
      rcases hc with hc | hc | hc
      · refine Or.inl ?_
        obtain ⟨j, hj⟩ := List.mem_iff_getElem?.mp hc
        refine List.mem_eraseIdx_iff_getElem?.mpr ⟨j, ?_, hj⟩
        intro hji
        rw [hji, hi, Option.some.injEq] at hj
        exact heq hj.symm
      · exact Or.inr (Or.inl (List.mem_append_left _ hc))
      · exact Or.inr (Or.inr hc)
  · intro x hx
    refine Or.inl ?_
    simp only [Daemons.own, List.mem_append, List.mem_flatMap] at hx ⊢
    rcases hx with hx | ⟨c, hc, hx⟩
    · exact Or.inl hx
    · exact Or.inr ⟨c, List.mem_of_mem_eraseIdx hc, hx⟩

theorem verifyTaken_retains (env : Env F) (m : Miner) (s s' : Daemons F) (hinv : Retains m s)
    (hdrops : DropsNone env m s .verifyBlock) (h : verifyTaken env s = some s') : Retains m s' := by
  obtain ⟨sender, b, bc', hb, ⟨-, rfl⟩ | ⟨v, hv, hnot, rfl⟩⟩ := verifyTaken_eq_some env s s' h
  · refine hinv.of_moved rfl ?_ (fun x hx => Or.inl hx)
    intro t _
    refine ownPlaces_of_blocks m s _ ?_
    intro c hc hx
    rw [hb, Option.some.injEq, Prod.mk.injEq] at hc
    refine ⟨c, ?_, hx⟩
    rw [List.mem_cons, eq_comm (a := c)]
    tauto
  · refine hinv.of_moved rfl ?_ (fun x hx => Or.inl hx)
    intro t ht hplace
    by_cases hown : sender = m.addr ∧ some t ∈ b.transactions
    · -- An own block that is refused: the chain has its transactions.
      obtain ⟨rfl, hx⟩ := hown
      rcases hdrops b hb with hpass | hchain
      · obtain ⟨bc'', happ⟩ := verifyBlock_of_passes env s.history.bc b hpass
        rw [happ, Prod.mk.injEq] at hv
        rw [← hv.1] at hnot
        cases hnot
      · exact Daemons.HasTxn.ownPlaces (s := { s with verifying := none, history := ⟨bc', s.history.blocks⟩ })
          (hchain t ht hx) m
    · refine ownPlaces_of_blocks m s _ ?_ hplace
      intro c hc hx
      refine ⟨c, ?_, hx⟩
      have hne : s.verifying ≠ some (m.addr, c) := by
        rw [hb]
        intro heq
        cases heq
        exact hown ⟨rfl, hx⟩
      tauto

theorem daemonStep_retains (env : Env F) (m : Miner) (s : Daemons F) (e : MinerEvent F) (s' : Daemons F)
    (hinv : Retains m s) (hdrops : DropsNone env m s e) (h : daemonStep env m s e = some s') : Retains m s' := by
  cases e with
  | walletTxn source txn => exact walletTxn_retains m source txn s s' hinv h
  | latestWorldState =>
    simp only [daemonStep] at h
    split at h
    · rename_i hloop _
      rw [← Option.some.inj h]
      refine hinv.of_moved rfl ?_ ?_
      · intro t _
        simp only [Daemons.mem_ownPlaces, Daemons.returning, hloop, TxnLoop.held, List.map_nil, imp_self]
      · intro x
        simp only [Daemons.own, hloop, TxnLoop.held, List.map_nil]
        exact Or.inl
    · cases h
  | readTxn mining => exact readTxn_retains env m mining s s' hinv hdrops h
  | tryAppend => exact checkMined_retains env m s s' hinv h
  | requeue => exact requeue_retains m s s' hinv h
  | ownBlock i =>
    simp only [daemonStep] at h
    split at h
    · rename_i b hi
      exact ownBlock_retains env m i b s s' hinv hi (hdrops b hi) h
    · cases h
  | peerBlock source msg => exact sendBlock_retains m _ _ s s' hinv h
  | takeBlock =>
    simp only [daemonStep] at h
    split at h
    · rename_i msg rest hnone hch
      rw [← Option.some.inj h]
      refine hinv.of_moved rfl ?_ (fun x hx => Or.inl hx)
      intro t _
      refine ownPlaces_of_blocks m s _ ?_
      intro c hc hx
      rw [hch, List.mem_cons, hnone] at hc
      refine ⟨c, ?_, hx⟩
      rw [Option.some.injEq, eq_comm (a := msg)]
      tauto
    · cases h
  | verifyBlock => exact verifyTaken_retains env m s s' hinv hdrops h

/-- As long as what the miner refuses of its own is in the chain, every mined transaction has a place. -/
theorem mined_txns_kept (env : Env F) (m : Miner) (bootstrap : ChainHistory F) (es : List (MinerEvent F))
    (s : Daemons F) (hrun : run (daemonStep env m) (.start bootstrap) es = some s)
    (hdrops : Meets (daemonStep env m) (DropsNone env m) (.start bootstrap) es)
    (t : SignedTransaction F) (ht : t ∈ s.mined) : some t ∈ s.places := by
  have hinit : Retains m (.start bootstrap : Daemons F) := by
    refine ⟨?_, ?_⟩
    · simp [Daemons.start]
    · simp [Daemons.start, Daemons.own, TxnLoop.held]
  have hinv : Retains m s := run_invariant (Retains m) (daemonStep_retains env m) es hinit hdrops hrun
  exact s.ownPlaces_subset m (hinv.mined t ht)

/-- A payment becomes a block, up to the broadcast of it. -/
def minePayment : List (MinerEvent Int) :=
  [.walletTxn "127.0.0.1:3" payment, .latestWorldState, .readTxn sampleMining, .tryAppend]

def appendPayment : List (MinerEvent Int) := minePayment ++ [.ownBlock 0, .takeBlock, .verifyBlock]

/-- Nothing mined is read again, own blocks come back, and each block that is taken up gets appended. -/
def runsStraight (env : Env Int) (m : Miner) (s : Daemons Int) : MinerEvent Int → Bool
  | .readTxn _ => s.mined.isEmpty
  | .ownBlock i => (s.broadcasting[i]?).all fun b => (receiveOwn env m b).isOk
  | .verifyBlock => s.verifying.all fun (_, b) => (verifyBlock env s.history.bc b).1.isAppended
  | _ => true

theorem dropsNone_of_runsStraight (env : Env Int) (m : Miner) (s : Daemons Int) (e : MinerEvent Int)
    (h : runsStraight env m s e = true) : DropsNone env m s e := by
  cases e with
  | readTxn mining =>
    intro lastBlock txns w t rest hloop hch ht
    rw [List.isEmpty_iff.mp h] at ht
    cases ht
  | ownBlock i =>
    rintro b hb ⟨why, hpanic⟩
    simp [runsStraight, hb, hpanic] at h
  | verifyBlock =>
    intro b hb
    simp only [runsStraight, hb, Option.all_some] at h
    rcases hv : verifyBlock env s.history.bc b with ⟨v, bc'⟩
    rw [hv] at h
    cases v with
    | appended =>
      obtain ⟨hpow, p, w, hp, hw, hhash, -⟩ := verifyBlock_appended env s.history.bc bc' b hv
      exact Or.inl ⟨hpow, p, w, hp, hw, hhash⟩
    | _ => cases h
  | _ => trivial

/-- With no other miner around, the payment ends up in the chain. -/
theorem minePayment_kept :
    ∃ g s, run (daemonStep (blockEnv none) sampleMiner) (.start (.genesis (blockEnv none) g))
        appendPayment = some s ∧
      ∃ t ∈ s.mined, some t ∈ s.places ∧ s.history.blocks.length = 2 := by
  obtain ⟨g, -, -, hg⟩ := genesis_of_check
    (fun g => decide (Meets (daemonStep (blockEnv none) sampleMiner)
        (fun s e => runsStraight (blockEnv none) sampleMiner s e = true) (.start (.genesis (blockEnv none) g))
        appendPayment) &&
      (run (daemonStep (blockEnv none) sampleMiner) (.start (.genesis (blockEnv none) g))
        appendPayment).any fun s : Daemons Int =>
          decide (s.mined.length = 1 ∧ s.history.blocks.length = 2)) (by decide +kernel)
  rw [Bool.and_eq_true, decide_eq_true_eq] at hg
  obtain ⟨s, hrun, hs⟩ := (Option.any_eq_true _ _).mp hg.2
  rw [decide_eq_true_eq] at hs
  obtain ⟨t, ht⟩ := List.length_eq_one_iff.mp hs.1
  have hmem : t ∈ s.mined := by
    rw [ht]
    exact List.mem_singleton.mpr rfl
  have hdrops := meets_mono (dropsNone_of_runsStraight (blockEnv none) sampleMiner) _ hg.1
  exact ⟨g, s, hrun, t, hmem, mined_txns_kept _ _ _ _ s hrun hdrops t hmem, hs.2⟩

/-- A block without transactions on genesis, from another miner. -/
def competingMessage (g : Block Int) : BlockMessage Int :=
  { sampleMessage g (rawAccount 0 7) (rawAccount 0 5) payment with transactions := [] }

def competeWithPayment (g : Block Int) : List (MinerEvent Int) :=
  minePayment ++ [.peerBlock "127.0.0.1:2" (competingMessage g), .takeBlock, .verifyBlock,
    .ownBlock 0, .takeBlock, .verifyBlock]

/-- The block of another miner comes in after the own one was found to fit. It is appended first, the own
one is refused, and nobody puts its payment back. -/
theorem minedPayment_lost :
    ∃ g s, BlockBuilder.build (blockEnv none) (sampleGenesisBuilder paymentWorld) = .ok g ∧
      run (daemonStep (blockEnv none) sampleMiner) (.start (.genesis (blockEnv none) g))
        (competeWithPayment g) = some s ∧
      ∃ t ∈ s.mined, some t ∉ s.places := by
  obtain ⟨g, hbuild, -, hg⟩ := genesis_of_check
    (fun g => (run (daemonStep (blockEnv none) sampleMiner) (.start (.genesis (blockEnv none) g))
        (competeWithPayment g)).any fun s : Daemons Int =>
          decide (s.mined.length = 1 ∧ s.places.length = 0)) (by decide +kernel)
  obtain ⟨s, hrun, hs⟩ := (Option.any_eq_true _ _).mp hg
  rw [decide_eq_true_eq] at hs
  obtain ⟨t, ht⟩ := List.length_eq_one_iff.mp hs.1
  refine ⟨g, s, hbuild, hrun, t, ?_, ?_⟩
  · rw [ht]
    exact List.mem_singleton.mpr rfl
  · rw [List.eq_nil_of_length_eq_zero hs.2]
    exact List.not_mem_nil

end MarketPeer.Ledger
