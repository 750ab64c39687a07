import MarketPeer.Ledger.Chain
import MarketPeer.Ledger.Mining

/-!
# From block to block

The chain of a miner that processes block messages, one after the other. Every
block of it continues its parent, and its state is what the transactions of the
block make out of the state of the parent, up to the hash.
-/

namespace MarketPeer.Ledger

variable {F : Type}

/-! ## Proof of work -/

def StartsWithZeros (hash : Bytes) (n : Nat) : Prop := hash.take n = List.replicate n 0

theorem prefixZeros_eq_true (hash : Bytes) (n : Nat) (h : (prefixZeros hash n : Res F Bool) = .ok true) :
    StartsWithZeros hash n := by
  unfold StartsWithZeros
  induction n generalizing hash with
  | zero => rfl
  | succ n ih =>
    cases hash with
    | nil => simp [prefixZeros] at h
    | cons b bs =>
      unfold prefixZeros at h
      split_ifs at h with hb
      · simp at h
      · rw [List.take_succ_cons, ih bs h, List.replicate_succ, not_not.mp hb]

variable [Float64 F]

/-! ## One message -/

/-- One message through `BlockMsgCallback` and one round of `verifyBlockd`. `ProcessPacket` recovers a panic
of the callback, and the message is gone; a panic of the daemon ends the process. -/
def receiveBlock (env : Env F) (m : Miner) (s : ChainHistory F) (e : String × BlockMessage F) :
    Option (ChainHistory F) :=
  match blockMsgCallback env m e.1 e.2 with
  | .panic _ => some s
  | .err _ => some s
  | .ok none => some s
  | .ok (some b) =>
    match verifyBlock env s.bc b with
    | (.crashed _, _) => none
    | (.appended, bc') => some ⟨bc', b :: s.blocks⟩
    | (_, bc') => some ⟨bc', s.blocks⟩

structure Continues (env : Env F) (b p : Block F) : Prop where
  parent : b.header.parentHash = p.hash env
  number : b.header.number = p.header.number + 1
  work : StartsWithZeros (b.hashBytes env) b.header.difficulty.toInt.toNat
  state : World.hash env b.state = .ok b.header.stateHash
  replayed : ∃ w, replay env p.state b.transactions = .ok w ∧ World.hash env w = .ok b.header.stateHash

theorem verifyBlock_not_appended (env : Env F) (bc bc' : BlockChain F) (b last : Block F) (v : Verdict F)
    (hends : bc.ends = [last]) (h : verifyBlock env bc b = (v, bc')) (hv : v.isAppended = false) : bc' = bc := by
  have happend := append_cases env bc b last hends
  unfold verifyBlock at h
  split at h
  · split at h
    · split at h
      · split_ifs at h
        · exact (Prod.mk.inj h).2.symm
        · rcases happend with ⟨heq, -⟩ | ⟨-, hsame⟩
          · rw [heq] at h
            rw [← (Prod.mk.inj h).1] at hv
            cases hv
          · split at h
            all_goals
              rename_i heq
              rw [heq] at hsame
              rw [← (Prod.mk.inj h).2]
              exact hsame
      · exact (Prod.mk.inj h).2.symm
      · exact (Prod.mk.inj h).2.symm
    · split_ifs at h <;> exact (Prod.mk.inj h).2.symm
    · exact (Prod.mk.inj h).2.symm
  · exact (Prod.mk.inj h).2.symm
  · exact (Prod.mk.inj h).2.symm
  · exact (Prod.mk.inj h).2.symm

theorem continues_of_appended (env : Env F) (m : Miner) (bc bc' : BlockChain F) (source : String)
    (msg : BlockMessage F) (b last : Block F) (hends : bc.ends = [last])
    (hb : blockMsgCallback env m source msg = .ok (some b)) (h : verifyBlock env bc b = (.appended, bc')) :
    Continues env b last ∧ bc'.ends = [b] := by
  obtain ⟨hpow, p, w, hp, hw, hhash, happend⟩ := verifyBlock_appended env bc bc' b h
  rw [tryAppend_eq_ok env bc b last p hends hp] at hw
  rcases append_cases env bc b last hends with ⟨heq, hparent, hnumber⟩ | ⟨hno, -⟩
  · rw [happend, Prod.mk.injEq] at heq
    refine ⟨⟨hparent, hnumber, ?_, (blockMsgCallback_eq_ok env m source msg b hb).1, w, hw, hhash⟩, ?_⟩
    · exact prefixZeros_eq_true _ _ hpow
    · rw [heq.2]
  · rw [happend] at hno
    cases hno

/-! ## Runs -/

/-- What a run keeps: the end is the newest block, and every block continues the one below it. -/
structure Consistent (env : Env F) (g : Block F) (s : ChainHistory F) : Prop where
  ends : s.bc.ends = s.blocks.take 1
  genesis : s.blocks.getLast? = some g
  continues : s.blocks.IsChain (Continues env)

theorem Consistent.exists_cons {env : Env F} {g : Block F} {s : ChainHistory F} (h : Consistent env g s) :
    ∃ last rest, s.blocks = last :: rest := by
  apply List.exists_cons_of_ne_nil
  intro hnil
  have hg := h.genesis
  rw [hnil] at hg
  cases hg

theorem receiveBlock_consistent (env : Env F) (m : Miner) (g : Block F) (s s' : ChainHistory F)
    (e : String × BlockMessage F) (hinv : Consistent env g s) (h : receiveBlock env m s e = some s') :
    Consistent env g s' := by
  obtain ⟨last, rest, hblocks⟩ := hinv.exists_cons
  have hends : s.bc.ends = [last] := by rw [hinv.ends, hblocks]; rfl
  unfold receiveBlock at h
  split at h
  · rw [← Option.some.inj h]; exact hinv
  · rw [← Option.some.inj h]; exact hinv
  · rw [← Option.some.inj h]; exact hinv
  · rename_i b hb
    split at h
    · cases h
    · rename_i bc' hv
      rw [← Option.some.inj h]
      obtain ⟨hcont, hends'⟩ := continues_of_appended env m s.bc bc' _ _ b last hends hb hv
      refine ⟨hends', ?_, ?_⟩
      · have := hinv.genesis
        rw [hblocks] at this ⊢
        exact this
      · have := hinv.continues
        rw [hblocks] at this ⊢
        exact List.isChain_cons_cons.mpr ⟨hcont, this⟩
    · rename_i v bc' hcrash happ hv
      rw [← Option.some.inj h]
      have hnot : v.isAppended = false := by
        cases v with
        | appended => exact (happ rfl).elim
        | _ => rfl
      rw [verifyBlock_not_appended env s.bc bc' b last v hends hv hnot]
      exact hinv

/-- The states of the blocks, and the states that replaying a block on the one below it gives. -/
def ChainStates (env : Env F) (blocks : List (Block F)) : Set (World F) :=
  { w | (∃ b ∈ blocks, b.state = w) ∨
    ∃ b p, [b, p] <:+: blocks ∧ replay env p.state b.transactions = .ok w }

def HashInjOn (env : Env F) (states : Set (World F)) : Prop :=
  ∀ w ∈ states, ∀ w' ∈ states, ∀ h, World.hash env w = .ok h → World.hash env w' = .ok h → w = w'

def chainTxns : List (Block F) → List (Option (SignedTransaction F))
  | [] => []
  | [_] => []
  | b :: p :: rest => chainTxns (p :: rest) ++ b.transactions

/-- The state of the newest block is the replay of all transactions on the state of genesis. -/
theorem state_eq_fold (env : Env F) (g b : Block F) (blocks : List (Block F))
    (hg : (b :: blocks).getLast? = some g) (hcont : (b :: blocks).IsChain (Continues env))
    (hinj : HashInjOn env (ChainStates env (b :: blocks))) :
    replay env g.state (chainTxns (b :: blocks)) = .ok b.state := by
  induction blocks generalizing b with
  | nil =>
    rw [List.getLast?_singleton, Option.some.injEq] at hg
    rw [hg]
    rfl
  | cons p rest ih =>
    rw [List.isChain_cons_cons] at hcont
    have hsub : ChainStates env (p :: rest) ⊆ ChainStates env (b :: p :: rest) := by
      rintro w (⟨x, hx, hw⟩ | ⟨x, y, hxy, hw⟩)
      · exact Or.inl ⟨x, List.mem_cons_of_mem b hx, hw⟩
      · exact Or.inr ⟨x, y, hxy.trans (List.suffix_cons b _).isInfix, hw⟩
    have hp := ih p (by rwa [List.getLast?_cons_cons] at hg) hcont.2
      (fun w hw w' hw' => hinj w (hsub hw) w' (hsub hw'))
    obtain ⟨w, hw, hhash⟩ := hcont.1.replayed
    -- The replayed state and the state of the block have one hash, so they are one.
    have hsame : w = b.state := by
      refine hinj w (Or.inr ⟨b, p, ⟨[], rest, rfl⟩, hw⟩) b.state (Or.inl ⟨b, List.mem_cons_self, rfl⟩) _
        hhash hcont.1.state
    rw [chainTxns, replay_append env _ _ _ _ hp, hw, hsame]

/-- Whatever messages arrive, every block of the chain continues its parent; and where the hash tells
the states of the chain apart, the latest state is the replay of the whole chain from genesis. -/
theorem chain_consistent (env : Env F) (m : Miner) (g : Block F) (msgs : List (String × BlockMessage F))
    (s : ChainHistory F) (hrun : run (receiveBlock env m) (.genesis env g) msgs = some s) :
    s.blocks.IsChain (Continues env) ∧ s.blocks.getLast? = some g ∧
      ∃ b rest, s.blocks = b :: rest ∧ s.bc.latestWorldState = .ok (b.state, b) ∧
        (HashInjOn env (ChainStates env s.blocks) →
          replay env g.state (chainTxns s.blocks) = .ok b.state) := by
  have hinit : Consistent env g (.genesis env g) := ⟨rfl, rfl, List.IsChain.singleton g⟩
  have hinv : Consistent env g s :=
    run_preserves (Consistent env g) (fun s e s' hinv => receiveBlock_consistent env m g s s' e hinv) msgs hinit hrun
  obtain ⟨b, rest, hblocks⟩ := hinv.exists_cons
  refine ⟨hinv.continues, hinv.genesis, b, rest, hblocks, ?_, ?_⟩
  · unfold BlockChain.latestWorldState
    rw [hinv.ends, hblocks]
    rfl
  · rw [hblocks]
    intro hinj
    exact state_eq_fold env g b rest (hblocks ▸ hinv.genesis) (hblocks ▸ hinv.continues) hinj

theorem receiveBlock_blocks (env : Env F) (m : Miner) (s s' : ChainHistory F) (e : String × BlockMessage F)
    (h : receiveBlock env m s e = some s') :
    s'.blocks = s.blocks ∨
      ∃ b, blockMsgCallback env m e.1 e.2 = .ok (some b) ∧ s'.blocks = b :: s.blocks := by
  unfold receiveBlock at h
  split at h
  · rw [← Option.some.inj h]; exact Or.inl rfl
  · rw [← Option.some.inj h]; exact Or.inl rfl
  · rw [← Option.some.inj h]; exact Or.inl rfl
  · rename_i b hb
    split at h
    · cases h
    · rw [← Option.some.inj h]; exact Or.inr ⟨b, hb, rfl⟩
    · rw [← Option.some.inj h]; exact Or.inl rfl

/-- A message with no state at all, and then one with a payment. -/
def paymentMessages (g : Block Int) : List (String × BlockMessage Int) :=
  [("127.0.0.1:2", ⟨"127.0.0.1:2", g.header, none, []⟩),
    ("127.0.0.1:2", sampleMessage g (rawAccount 1 4) (rawAccount 0 8) payment)]

theorem noState_dropped (g : Block Int) :
    receiveBlock (blockEnv none) sampleMiner (.genesis (blockEnv none) g)
      ("127.0.0.1:2", ⟨"127.0.0.1:2", g.header, none, []⟩) = some (.genesis (blockEnv none) g) := rfl

theorem paymentMessages_run : ∃ g s b, BlockBuilder.build (blockEnv none) (sampleGenesisBuilder paymentWorld) = .ok g ∧
    run (receiveBlock (blockEnv none) sampleMiner) (.genesis (blockEnv none) g) (paymentMessages g) = some s ∧
    s.blocks = [b, g] ∧ b.transactions = [some payment] := by
  obtain ⟨g, hbuild, -, hg⟩ := genesis_of_check
    (fun g => appendsMessage g (sampleMessage g (rawAccount 1 4) (rawAccount 0 8) payment)) (by decide +kernel)
  obtain ⟨b, bc', hcallback, hverify, -, htxns⟩ := appendsMessage_spec g _ _ payment hg
  have happended : receiveBlock (blockEnv none) sampleMiner (.genesis (blockEnv none) g)
      ("127.0.0.1:2", sampleMessage g (rawAccount 1 4) (rawAccount 0 8) payment) = some ⟨bc', [b, g]⟩ := by
    simp only [receiveBlock, hcallback, ChainHistory.genesis, hverify]
  refine ⟨g, ⟨bc', [b, g]⟩, b, hbuild, ?_, rfl, htxns⟩
  rw [paymentMessages, run_cons (noState_dropped g), run_cons happended]
  rfl

/-- The message with no state is dropped, and the block of the other one continues genesis. -/
theorem paymentMessages_consistent : ∃ g s b,
    run (receiveBlock (blockEnv none) sampleMiner) (.genesis (blockEnv none) g) (paymentMessages g) = some s ∧
      s.blocks = [b, g] ∧ b.transactions = [some payment] ∧ Continues (blockEnv none) b g := by
  obtain ⟨g, s, b, -, hrun, hblocks, htxns⟩ := paymentMessages_run
  have hchain := (chain_consistent (blockEnv none) sampleMiner g _ s hrun).1
  rw [hblocks, List.isChain_cons_cons] at hchain
  exact ⟨g, s, b, hrun, hblocks, htxns, hchain.1⟩

end MarketPeer.Ledger
