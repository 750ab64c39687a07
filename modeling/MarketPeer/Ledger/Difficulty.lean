import MarketPeer.Ledger.Transition

/-!
# The difficulty of the chain

`verifyBlockd` measures a block by the difficulty that its own header claims, and
the hash does not cover that field. The chain keeps the difficulty of genesis as
long as every block that names the end also repeats the difficulty of the end.
-/

namespace MarketPeer.Ledger

variable {F : Type} [Float64 F]

/-- The comparison with the parent that `verifyBlockd` does not make. -/
def RepeatsDifficulty (env : Env F) (s : ChainHistory F) (e : String × BlockMessage F) : Prop :=
  ∀ last ∈ s.bc.ends, e.2.header.parentHash = last.hash env →
    e.2.header.difficulty = last.header.difficulty

theorem build_header (env : Env F) (bb : BlockBuilder F) (b : Block F) (h : bb.build env = .ok b) :
    b.header.parentHash = bb.parentHash ∧ b.header.difficulty = bb.difficulty := by
  simp only [BlockBuilder.build, Outcome.bind_eq_ok, Outcome.pure_eq, Outcome.ok.injEq] at h
  obtain ⟨stateHash, -, receiptsHash, -, rfl⟩ := h
  exact ⟨rfl, rfl⟩

theorem blockMsgCallback_header (env : Env F) (m : Miner) (source : String) (msg : BlockMessage F)
    (b : Block F) (h : blockMsgCallback env m source msg = .ok (some b)) :
    b.header.parentHash = msg.header.parentHash ∧ b.header.difficulty = msg.header.difficulty := by
  unfold blockMsgCallback at h
  split_ifs at h
  · cases h
  · split at h
    · cases h
    · simp only [Outcome.bind_eq_ok, Outcome.pure_eq, Outcome.ok.injEq, Option.some.injEq] at h
      obtain ⟨accounts, -, b', hb', rfl⟩ := h
      exact build_header env _ b' hb'

/-- What a run keeps: the chain is consistent, and all of it has the difficulty of genesis. -/
structure SameDifficulty (env : Env F) (g : Block F) (s : ChainHistory F) : Prop extends Consistent env g s where
  same : ∀ b ∈ s.blocks, b.header.difficulty = g.header.difficulty

theorem receiveBlock_sameDifficulty (env : Env F) (m : Miner) (g : Block F) (s : ChainHistory F)
    (e : String × BlockMessage F) (s' : ChainHistory F) (hinv : SameDifficulty env g s)
    (hrepeats : RepeatsDifficulty env s e) (h : receiveBlock env m s e = some s') :
    SameDifficulty env g s' := by
  have hconsistent := receiveBlock_consistent env m g s s' e hinv.toConsistent h
  refine ⟨hconsistent, ?_⟩
  rcases receiveBlock_blocks env m s s' e h with hsame | ⟨b, hb, hblocks⟩
  · rw [hsame]
    exact hinv.same
  · obtain ⟨last, rest, hlast⟩ := hinv.exists_cons
    have hends : last ∈ s.bc.ends := by
      rw [hinv.ends, hlast]
      exact List.mem_cons_self
    obtain ⟨hparent, hdifficulty⟩ := blockMsgCallback_header env m e.1 e.2 b hb
    -- The new block names the end, so its message has repeated the difficulty of the end.
    have hcontinues := hconsistent.continues
    rw [hblocks, hlast, List.isChain_cons_cons] at hcontinues
    have hnew : b.header.difficulty = g.header.difficulty := by
      rw [hdifficulty, hrepeats last hends (hparent.symm.trans hcontinues.1.parent)]
      exact hinv.same last (by simp [hlast])
    rw [hblocks]
    intro x hx
    rcases List.mem_cons.mp hx with rfl | hx
    · exact hnew
    · exact hinv.same x hx

theorem exists_next_of_isChain {α : Type} {R : α → α → Prop} (l : List α) (h : l.IsChain R) (b : α)
    (hb : b ∈ l.dropLast) : ∃ p, R b p := by
  induction l with
  | nil => simp at hb
  | cons x rest ih =>
    cases rest with
    | nil => simp at hb
    | cons p rest =>
      rw [List.isChain_cons_cons] at h
      rw [List.dropLast_cons_of_ne_nil (by simp)] at hb
      rcases List.mem_cons.mp hb with rfl | hb
      · exact ⟨p, h.1⟩
      · exact ih h.2 hb

/-- Whatever messages arrive, as long as those that name the end repeat its difficulty, every block
that was appended has the difficulty of genesis and a hash with as many zero bytes. -/
theorem work_not_downgraded (env : Env F) (m : Miner) (g : Block F) (msgs : List (String × BlockMessage F))
    (s : ChainHistory F) (hrun : run (receiveBlock env m) (.genesis env g) msgs = some s)
    (hrepeats : Meets (receiveBlock env m) (RepeatsDifficulty env) (.genesis env g) msgs)
    (b : Block F) (hb : b ∈ s.blocks.dropLast) :
    b.header.difficulty = g.header.difficulty ∧
      StartsWithZeros (b.hashBytes env) g.header.difficulty.toInt.toNat := by
  have hinit : SameDifficulty env g (.genesis env g) :=
    ⟨⟨rfl, rfl, List.IsChain.singleton g⟩, by simp [ChainHistory.genesis]⟩
  have hinv : SameDifficulty env g s :=
    run_invariant (SameDifficulty env g) (receiveBlock_sameDifficulty env m g) msgs hinit hrepeats hrun
  have hsame := hinv.same b (List.dropLast_subset s.blocks hb)
  obtain ⟨p, hcontinues⟩ := exists_next_of_isChain s.blocks hinv.continues b hb
  rw [← hsame]
  exact ⟨rfl, hcontinues.work⟩

/-- The block with the payment has the difficulty of its genesis. -/
theorem paymentMessages_keep_difficulty : ∃ g s b,
    run (receiveBlock (blockEnv none) sampleMiner) (.genesis (blockEnv none) g) (paymentMessages g) = some s ∧
      s.blocks = [b, g] ∧ b.transactions = [some payment] ∧ b.header.difficulty = GENESIS_DIFFICULTY ∧
      StartsWithZeros (b.hashBytes (blockEnv none)) 2 := by
  obtain ⟨g, s, b, hbuild, hrun, hblocks, htxns⟩ := paymentMessages_run
  have hdifficulty : g.header.difficulty = GENESIS_DIFFICULTY := (build_header _ _ g hbuild).2
  have hrepeats : Meets (receiveBlock (blockEnv none) sampleMiner) (RepeatsDifficulty (blockEnv none))
      (.genesis (blockEnv none) g) (paymentMessages g) := by
    unfold paymentMessages
    refine ⟨?_, fun s' hs' => ?_⟩
    · intro last hlast _
      rw [List.mem_singleton.mp hlast]
    · -- the first message is dropped, so the end is still genesis
      obtain rfl : .genesis (blockEnv none) g = s' := Option.some.inj ((noState_dropped g).symm.trans hs')
      refine ⟨?_, fun _ _ => trivial⟩
      intro last hlast _
      have hg : last = g := List.mem_singleton.mp hlast
      rw [hg, sampleMessage]
  have hkept := work_not_downgraded (blockEnv none) sampleMiner g _ s hrun hrepeats b (by simp [hblocks])
  rw [hdifficulty] at hkept
  exact ⟨g, s, b, hrun, hblocks, htxns, hkept.1, hkept.2⟩

def emptyMessage : BlockMessage Int where
  sender := "127.0.0.1:2"
  header := sampleChild.header
  state := some .new
  transactions := []

/-- Hashes that start with a one, which meet no difficulty but zero. -/
def workEnv : Env Int := { blockEnv none with sha256 := fun bs => 1 :: bs.take 65 }

def zeroDifficultyMessage : BlockMessage Int :=
  { emptyMessage with header := { (sampleBlock (sampleRoot.hash workEnv) 1).header with difficulty := 0 } }

theorem zeroDifficulty_appended :
    sampleRoot.header.difficulty = 2 ∧
    ∃ s, run (receiveBlock workEnv sampleMiner) (.genesis workEnv sampleRoot)
        [("127.0.0.1:2", zeroDifficultyMessage)] = some s ∧
      ∃ b ∈ s.blocks.dropLast, b.header.difficulty = 0 ∧ ¬StartsWithZeros (b.hashBytes workEnv) 2 := by
  have hcheck : (run (receiveBlock workEnv sampleMiner) (.genesis workEnv sampleRoot)
      [("127.0.0.1:2", zeroDifficultyMessage)]).any (fun s => s.blocks.dropLast.any fun b =>
        b.header.difficulty = 0 ∧ (b.hashBytes workEnv).take 2 ≠ [0, 0]) = true := by
    decide +kernel
  obtain ⟨s, hrun, hblocks⟩ := (Option.any_eq_true _ _).mp hcheck
  obtain ⟨b, hb, hzero⟩ := List.any_eq_true.mp hblocks
  have hfields := of_decide_eq_true hzero
  exact ⟨rfl, s, hrun, b, hb, hfields.1, hfields.2⟩

end MarketPeer.Ledger
