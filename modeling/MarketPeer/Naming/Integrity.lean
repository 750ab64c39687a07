import MarketPeer.Naming.Invariant

/-!
# The chain of the names

A learner puts the hash of its last block under the new one. As long as that is the
block of the step before, there is one block for each step, and every peer stores it.
-/

namespace MarketPeer.Naming

open MarketPeer.Paxos (PaxosValue)

variable {N : Nat}

/-! ## One block for each step -/

/-- When the learner reads the last hash, the block of its own step is not stored yet. -/
def ReadsPrevious (s : System N) : Event N → Prop
  | .assemble i => ∀ b ∈ (s.peers i).chain, b.index ≠ (s.peers i).step
  | _ => True

instance (s : System N) : (e : Event N) → Decidable (ReadsPrevious s e)
  | .assemble i => inferInstanceAs (Decidable (∀ b ∈ (s.peers i).chain, b.index ≠ (s.peers i).step))
  | .tag _ _ | .checkName _ | .propose _ | .finish _ | .proposeReturns _ | .learn _ _ | .broadcast _
  | .receive _ _ | .readTLC _ | .storeBlock _ | .writeName _ | .announce _ | .advance _ => isTrue trivial

/-- The blocks name the one before them, and no index has two. -/
structure OneChain (blocks : List Block) : Prop where
  first : ∀ b ∈ blocks, b.index = 0 → b.prevHash = zeroHash
  linked : ∀ b ∈ blocks, ∀ k, b.index = k + 1 → ∃ c ∈ blocks, c.index = k ∧ b.prevHash = c.hash
  unique : ∀ b ∈ blocks, ∀ c ∈ blocks, b.index = c.index → b = c

theorem lastHash_spec {sent : List TLC} {made : List Block} {learned : List (Nat × PaxosValue)} {p : Peer}
    (h : PeerOk sent made learned p) (hnew : ∀ b ∈ p.chain, b.index ≠ p.step) :
    (p.step = 0 ∧ p.lastHash = zeroHash) ∨ ∃ c ∈ p.chain, c.index + 1 = p.step ∧ p.lastHash = c.hash := by
  have hheight : p.chain.length = p.step := by
    have hheight := h.height
    split_ifs at hheight
    · obtain ⟨b, hb, hindex⟩ := h.counted.exists_index p.step (by omega)
      exact absurd hindex (hnew b hb)
    · exact hheight
  have hlast := h.last
  have hcounted := h.counted
  unfold Peer.lastHash
  rw [hlast]
  cases hchain : p.chain with
  | nil =>
    rw [hchain] at hheight
    exact Or.inl ⟨hheight.symm, rfl⟩
  | cons c rest =>
    rw [hchain] at hheight hcounted
    refine Or.inr ⟨c, List.mem_cons_self, ?_, rfl⟩
    rw [hcounted.1]
    exact hheight

/-- Same step, so same value and same block before: nothing is left to differ from the block of a learner. -/
theorem eq_assemble (cfg : Config) (s : System N) (i : Fin N) (v : PaxosValue) (h : Base cfg s)
    (hone : OneValue s) (hchain : OneChain s.made) (hv : (s.peers i).learner = .learned v)
    (hnew : ∀ b ∈ (s.peers i).chain, b.index ≠ (s.peers i).step) (b : Block) (hb : b ∈ s.made)
    (hindex : b.index = (s.peers i).step) : b = assemble cfg (s.peers i) v := by
  obtain ⟨hbv, hbhash⟩ := h.made b hb
  rw [hindex] at hbv hbhash
  have hvalue : b.value = v := hone _ _ _ hbv ((h.peers i).learned v hv)
  have hprev : b.prevHash = (s.peers i).lastHash := by
    rcases lastHash_spec (h.peers i) hnew with ⟨hzero, hhash⟩ | ⟨c, hc, hindexc, hhash⟩
    · rw [hhash, hchain.first b hb (by omega)]
    · obtain ⟨d, hd, hindexd, hprevd⟩ := hchain.linked b hb c.index (by omega)
      rw [hhash, hprevd, hchain.unique d hd c ((h.peers i).blocks c hc) hindexd]
  rw [hvalue, hprev] at hbhash
  obtain ⟨index, hash, value, prevHash⟩ := b
  simp only at hindex hvalue hprev hbhash
  rw [hindex, hvalue, hprev, hbhash]
  rfl

/-- The block of a learner continues the chain, so it is the one that is there, if there is one. -/
theorem assemble_oneChain (cfg : Config) (s : System N) (i : Fin N) (v : PaxosValue) (h : Base cfg s)
    (hone : OneValue s) (hchain : OneChain s.made) (hv : (s.peers i).learner = .learned v)
    (hnew : ∀ b ∈ (s.peers i).chain, b.index ≠ (s.peers i).step) :
    OneChain (s.made ++ [assemble cfg (s.peers i) v]) := by
  have hlast := lastHash_spec (h.peers i) hnew
  have hsame := eq_assemble cfg s i v h hone hchain hv hnew
  refine ⟨?_, ?_, ?_⟩
  · intro b hb hindex
    rcases List.mem_append.mp hb with hb | hb
    · exact hchain.first b hb hindex
    · rw [List.mem_singleton.mp hb] at hindex ⊢
      rcases hlast with ⟨-, hhash⟩ | ⟨c, -, hindexc, -⟩
      · exact hhash
      · exact absurd (hindexc.trans hindex) (Nat.succ_ne_zero _)
  · intro b hb k hindex
    rcases List.mem_append.mp hb with hb | hb
    · obtain ⟨c, hc, hck⟩ := hchain.linked b hb k hindex
      exact ⟨c, List.mem_append_left _ hc, hck⟩
    · rw [List.mem_singleton.mp hb] at hindex ⊢
      change (s.peers i).step = k + 1 at hindex
      rcases hlast with ⟨hzero, -⟩ | ⟨c, hc, hindexc, hhash⟩
      · omega
      · exact ⟨c, List.mem_append_left _ ((h.peers i).blocks c hc), by omega, hhash⟩
  · intro b hb c hc hbc
    rcases List.mem_append.mp hb with hb | hb <;> rcases List.mem_append.mp hc with hc | hc
    · exact hchain.unique b hb c hc hbc
    · rw [List.mem_singleton.mp hc] at hbc ⊢
      exact hsame b hb hbc
    · rw [List.mem_singleton.mp hb] at hbc ⊢
      exact (hsame c hc hbc.symm).symm
    · rw [List.mem_singleton.mp hb, List.mem_singleton.mp hc]

/-- What a run keeps, when all learners agree and read the block of the step before. -/
structure Integrity (cfg : Config) (s : System N) : Prop where
  base : Base cfg s
  oneValue : OneValue s
  oneChain : OneChain s.made

theorem step_integrity (cfg : Config) (s : System N) (e : Event N) (s' : System N) (h : Integrity cfg s)
    (hcond : Agrees s e ∧ ReadsPrevious s e) (hstep : step cfg s e = some s') : Integrity cfg s' := by
  refine ⟨step_base h.base e hstep, step_oneValue e h.oneValue hcond.1 hstep, ?_⟩
  rcases (step_records e hstep).1 with hsame | ⟨i, v, rfl, hv, hmade⟩
  · rw [hsame]
    exact h.oneChain
  · rw [hmade]
    exact assemble_oneChain cfg s i v h.base h.oneValue h.oneChain hv hcond.2

theorem integrity_init (cfg : Config) (naming : Fin N → String → Option String) : Integrity cfg (.init naming) := by
  refine ⟨base_init cfg naming, ?_, ?_, ?_, ?_⟩
  all_goals simp [System.init, OneValue]

/-! ## Following the hashes -/

/-- The blocks that are found from a hash on, until a block has the zero hash below it. The number bounds
how many. -/
def follow (blockchain : String → Option Entry) : Nat → Bytes → Option (List Block)
  | 0, hash => if hexEncode hash = LastBlockKey then some [] else none
  | fuel + 1, hash =>
    if hexEncode hash = LastBlockKey then some []
    else
      match blockchain (hexEncode hash) with
      | some (.block b) => (follow blockchain fuel b.prevHash).map (b :: ·)
      | _ => none

def Block.preimage (b : Block) : Bytes := blockText b.index b.value ++ b.prevHash

/-- SHA-256 on the blocks of a chain: no two of them collide, and none has the hash that is all zeros. -/
structure HashesApart (cfg : Config) (chain : List Block) : Prop where
  size : ∀ bs, (cfg.sha256 bs).length = 32
  apart : ∀ b ∈ chain, ∀ c ∈ chain, cfg.sha256 b.preimage = cfg.sha256 c.preimage → b.preimage = c.preimage
  real : ∀ b ∈ chain, b.hash ≠ zeroHash

def tipHash : List Block → Bytes
  | [] => zeroHash
  | b :: _ => b.hash

def Linked : List Block → Prop
  | [] => True
  | b :: rest => b.prevHash = tipHash rest ∧ Linked rest

theorem OneChain.tail {b : Block} {rest : List Block} (h : OneChain (b :: rest)) (hcounted : Counted (b :: rest)) :
    OneChain rest := by
  refine ⟨?_, ?_, ?_⟩
  · intro c hc
    exact h.first c (List.mem_cons_of_mem b hc)
  · intro c hc k hk
    obtain ⟨d, hd, hindex, hprev⟩ := h.linked c (List.mem_cons_of_mem b hc) k hk
    have hlt := hcounted.2.index_lt c hc
    rcases List.mem_cons.mp hd with rfl | hd
    · have := hcounted.1
      omega
    · exact ⟨d, hd, hindex, hprev⟩
  · intro c hc d hd
    exact h.unique c (List.mem_cons_of_mem b hc) d (List.mem_cons_of_mem b hd)

theorem linked_of_oneChain (chain : List Block) (hcounted : Counted chain) (h : OneChain chain) : Linked chain := by
  induction chain with
  | nil => trivial
  | cons b rest ih =>
    refine ⟨?_, ih hcounted.2 (h.tail hcounted)⟩
    cases rest with
    | nil => exact h.first b List.mem_cons_self hcounted.1
    | cons c rest =>
      obtain ⟨d, hd, hindex, hprev⟩ := h.linked b List.mem_cons_self rest.length hcounted.1
      have hc : c.index = rest.length := hcounted.2.1
      rw [hprev, h.unique d hd c (by simp) (hindex.trans hc.symm)]
      rfl

/-- Equal hashes are of blocks with equal index: down to genesis, the blocks below have equal hashes too. -/
theorem index_eq_of_hash {cfg : Config} {chain : List Block} (hone : OneChain chain) (hapart : HashesApart cfg chain)
    (hhash : ∀ b ∈ chain, b.hash = cfg.sha256 b.preimage) (b : Block) (hb : b ∈ chain) (c : Block) (hc : c ∈ chain)
    (h : b.hash = c.hash) : b.index = c.index := by
  have hsize : ∀ b ∈ chain, b.prevHash.length = 32 := by
    intro b hb
    rcases hk : b.index with _ | k
    · rw [hone.first b hb hk]
      rfl
    · obtain ⟨d, hd, -, hprev⟩ := hone.linked b hb k hk
      rw [hprev, hhash d hd]
      exact hapart.size _
  have hprev : ∀ b ∈ chain, ∀ c ∈ chain, b.hash = c.hash → b.prevHash = c.prevHash := by
    intro b hb c hc h
    rw [hhash b hb, hhash c hc] at h
    have happend := hapart.apart b hb c hc h
    exact (List.append_inj' happend (by rw [hsize b hb, hsize c hc])).2
  induction hk : b.index generalizing b c with
  | zero =>
    rcases hj : c.index with _ | j
    · rfl
    · obtain ⟨d, hd, -, hd'⟩ := hone.linked c hc j hj
      have hzero := hprev b hb c hc h
      rw [hone.first b hb hk, hd'] at hzero
      exact absurd hzero.symm (hapart.real d hd)
  | succ k ih =>
    obtain ⟨b', hb', hbk, hbprev⟩ := hone.linked b hb k hk
    rcases hj : c.index with _ | j
    · have hzero := hprev b hb c hc h
      rw [hone.first c hc hj, hbprev] at hzero
      exact absurd hzero (hapart.real b' hb')
    · obtain ⟨c', hc', hcj, hcprev⟩ := hone.linked c hc j hj
      have hbelow : b'.hash = c'.hash := by
        rw [← hbprev, ← hcprev]
        exact hprev b hb c hc h
      have := ih b' hb' c' hc' hbelow hbk
      omega

theorem hexEncode_zeroHash : hexEncode zeroHash = LastBlockKey := by decide

theorem follow_spec (blockchain : String → Option Entry) (chain : List Block) (hlinked : Linked chain)
    (hreal : ∀ b ∈ chain, b.hash ≠ zeroHash)
    (hfound : ∀ b ∈ chain, blockchain (hexEncode b.hash) = some (.block b)) :
    follow blockchain chain.length (tipHash chain) = some chain := by
  induction chain with
  | nil =>
    simp only [follow, tipHash, List.length_nil, hexEncode_zeroHash, if_true]
  | cons b rest ih =>
    have hkey : hexEncode b.hash ≠ LastBlockKey := by
      rw [← hexEncode_zeroHash]
      exact fun h => hreal b List.mem_cons_self (hexEncode_injective h)
    have hrest := ih hlinked.2 (fun c hc => hreal c (List.mem_cons_of_mem b hc))
      (fun c hc => hfound c (List.mem_cons_of_mem b hc))
    change follow blockchain (rest.length + 1) b.hash = some (b :: rest)
    rw [follow, if_neg hkey, hfound b List.mem_cons_self]
    dsimp only
    rw [hlinked.1, hrest, Option.map_some]

theorem Counted.map_index {chain : List Block} (h : Counted chain) :
    chain.map Block.index = (List.range chain.length).reverse := by
  induction chain with
  | nil => rfl
  | cons b rest ih =>
    rw [List.map_cons, ih h.2, h.1, List.length_cons, List.range_succ, List.reverse_append, List.reverse_singleton,
      List.singleton_append]

/-! ## The chain of a peer -/

/-- The block that the peer stored for a step: its index, its hash, and the block that it stored before. -/
structure Completed (cfg : Config) (p : Peer) (k : Nat) (b : Block) : Prop where
  stored : p.chain.reverse[k]? = some b
  index : b.index = k
  hash : b.hash = cfg.sha256 (blockText k b.value ++ b.prevHash)
  first : k = 0 → b.prevHash = zeroHash
  next : ∀ k', k = k' + 1 → ∃ c, p.chain.reverse[k']? = some c ∧ b.prevHash = c.hash

section Peers

variable {cfg : Config} {s : System N}

theorem chain_oneChain (h : Integrity cfg s) (i : Fin N) : OneChain (s.peers i).chain := by
  have hpeer := h.base.peers i
  refine ⟨?_, ?_, ?_⟩
  · intro b hb
    exact h.oneChain.first b (hpeer.blocks b hb)
  · intro b hb k hk
    obtain ⟨c, hc, hindex, hprev⟩ := h.oneChain.linked b (hpeer.blocks b hb) k hk
    have hlt := hpeer.counted.index_lt b hb
    obtain ⟨d, hd, hindexd⟩ := hpeer.counted.exists_index k (by omega)
    rw [h.oneChain.unique c hc d (hpeer.blocks d hd) (hindex.trans hindexd.symm)] at hprev
    exact ⟨d, hd, hindexd, hprev⟩
  · intro b hb c hc
    exact h.oneChain.unique b (hpeer.blocks b hb) c (hpeer.blocks c hc)

theorem completed_of_mem (h : Integrity cfg s) (i : Fin N) (b : Block) (hb : b ∈ (s.peers i).chain) :
    Completed cfg (s.peers i) b.index b := by
  have hpeer := h.base.peers i
  have hchain := chain_oneChain h i
  refine ⟨hpeer.counted.getElem? b hb, rfl, (h.base.made b (hpeer.blocks b hb)).2, hchain.first b hb, ?_⟩
  intro k hk
  obtain ⟨c, hc, hindex, hprev⟩ := hchain.linked b hb k hk
  refine ⟨c, ?_, hprev⟩
  rw [← hindex]
  exact hpeer.counted.getElem? c hc

theorem exists_completed (h : Integrity cfg s) (i : Fin N) (k : Nat) (hk : k < (s.peers i).step) :
    ∃ b ∈ (s.peers i).chain, b.index = k := by
  have hpeer := h.base.peers i
  have hheight := hpeer.height
  apply hpeer.counted.exists_index
  split_ifs at hheight <;> omega

theorem follow_chain (h : Integrity cfg s) (i : Fin N) (hapart : HashesApart cfg (s.peers i).chain) :
    follow (s.peers i).blockchain (s.peers i).chain.length (s.peers i).lastHash = some (s.peers i).chain := by
  have hpeer := h.base.peers i
  have hchain := chain_oneChain h i
  have hhash : ∀ b ∈ (s.peers i).chain, b.hash = cfg.sha256 b.preimage := by
    intro b hb
    exact (h.base.made b (hpeer.blocks b hb)).2
  have hlast : (s.peers i).lastHash = tipHash (s.peers i).chain := by
    unfold Peer.lastHash
    rw [hpeer.last]
    cases (s.peers i).chain <;> rfl
  rw [hlast]
  refine follow_spec _ _ (linked_of_oneChain _ hpeer.counted hchain) hapart.real ?_
  intro b hb
  have hkey : hexEncode b.hash ≠ LastBlockKey := by
    rw [← hexEncode_zeroHash]
    exact fun heq => hapart.real b hb (hexEncode_injective heq)
  rw [hpeer.stored _ hkey]
  -- What is found under the key has the same hash, so it is the block.
  cases hfind : (s.peers i).chain.find? fun c => hexEncode c.hash = hexEncode b.hash with
  | none =>
    rw [List.find?_eq_none] at hfind
    exact absurd (decide_eq_true rfl) (hfind b hb)
  | some c =>
    have hc := List.mem_of_find?_eq_some hfind
    have heq : c.hash = b.hash := hexEncode_injective (by simpa using List.find?_some hfind)
    rw [hchain.unique c hc b hb (index_eq_of_hash hchain hapart hhash c hc b hb heq)]
    rfl

end Peers

/-- When all learners of a step learn the same value and read the block of the step before, two peers
that completed a step stored the same block for it, and each block names the one before; then the hashes lead
from the last block through all of them. -/
theorem peers_store_one_chain (cfg : Config) (naming : Fin N → String → Option String) (es : List (Event N))
    (s : System N) (hrun : run (step cfg) (.init naming) es = some s)
    (hagrees : Meets (step cfg) Agrees (.init naming) es)
    (hreads : Meets (step cfg) ReadsPrevious (.init naming) es) :
    (∀ i j k, k < (s.peers i).step → k < (s.peers j).step →
      ∃ b, Completed cfg (s.peers i) k b ∧ Completed cfg (s.peers j) k b) ∧
    ∀ i, (s.peers i).step ≤ (s.peers i).chain.length ∧
      (HashesApart cfg (s.peers i).chain →
        (follow (s.peers i).blockchain (s.peers i).chain.length (s.peers i).lastHash).map (List.map Block.index) =
          some (List.range (s.peers i).chain.length).reverse) := by
  have h : Integrity cfg s :=
    run_invariant (Integrity cfg) (step_integrity cfg) es (integrity_init cfg naming)
      (meets_and es hagrees hreads) hrun
  refine ⟨?_, ?_⟩
  · intro i j k hi hj
    obtain ⟨b, hb, rfl⟩ := exists_completed h i k hi
    obtain ⟨c, hc, hindex⟩ := exists_completed h j b.index hj
    have hsame : c = b :=
      h.oneChain.unique c ((h.base.peers j).blocks c hc) b ((h.base.peers i).blocks b hb) hindex
    rw [hsame] at hc
    exact ⟨b, completed_of_mem h i b hb, completed_of_mem h j b hc⟩
  · intro i
    have hheight := (h.base.peers i).height
    refine ⟨by split_ifs at hheight <;> omega, fun hapart => ?_⟩
    rw [follow_chain h i hapart, Option.map_some, (h.base.peers i).counted.map_index]

/-- Two steps of two peers. -/
def sampleSteps : List (Event 2) := sampleRound sampleValue 0 ++ sampleRound ⟨"b", "other", "2"⟩ 2

theorem sampleSteps_one_chain :
    ∃ s : System 2, run (step sampleConfig) (.init fun _ _ => none) sampleSteps = some s ∧
      (∃ b, Completed sampleConfig (s.peers 0) 1 b ∧ Completed sampleConfig (s.peers 1) 1 b) ∧
      (follow (s.peers 0).blockchain 2 (s.peers 0).lastHash).map (List.map Block.index) = some [1, 0] := by
  have hcheck : (run (step sampleConfig) (.init fun _ _ => none) sampleSteps).any (fun s : System 2 =>
      (s.peers 0).step = 2 ∧ (s.peers 1).step = 2 ∧ (s.peers 0).chain.length = 2 ∧
      (∀ b ∈ (s.peers 0).chain, ∀ c ∈ (s.peers 0).chain,
        sampleConfig.sha256 b.preimage = sampleConfig.sha256 c.preimage → b.preimage = c.preimage) ∧
      ∀ b ∈ (s.peers 0).chain, b.hash ≠ zeroHash) = true := by
    decide +kernel
  obtain ⟨s, hrun, hs⟩ := (Option.any_eq_true _ _).mp hcheck
  rw [decide_eq_true_eq] at hs
  obtain ⟨h0, h1, hlength, hapart, hreal⟩ := hs
  obtain ⟨hsame, hfollow⟩ := peers_store_one_chain sampleConfig (fun _ _ => none) sampleSteps s hrun
    (by decide +kernel) (by decide +kernel)
  refine ⟨s, hrun, hsame 0 1 1 (by omega) (by omega), ?_⟩
  have hsize : ∀ bs, (sampleConfig.sha256 bs).length = 32 := by
    intro bs
    simp [sampleConfig]
  have := (hfollow 0).2 ⟨hsize, hapart, hreal⟩
  rw [hlength] at this
  exact this

/-- The daemon of peer 0 stores the block of step 0 before its learner reads the last hash. The block that
the learner makes is its own successor, and peer 2 stores that one for step 0. -/
def lateRead : List (Event 3) :=
  [.learn 0 sampleValue, .learn 1 sampleValue, .learn 2 sampleValue,
    .assemble 1, .assemble 2, .broadcast 1, .broadcast 2,
    .receive 0 0, .receive 0 1, .readTLC 0, .readTLC 0, .storeBlock 0, .writeName 0, .announce 0,
    .assemble 0, .broadcast 0, .advance 0,
    .receive 2 0, .receive 2 2, .readTLC 2, .readTLC 2, .storeBlock 2, .writeName 2, .announce 2, .advance 2]

theorem lateRead_splits_chain :
    Meets (step sampleConfig) Agrees (.init fun _ _ => none) lateRead ∧
    ∃ s : System 3, run (step sampleConfig) (.init fun _ _ => none) lateRead = some s ∧
      0 < (s.peers 0).step ∧ 0 < (s.peers 2).step ∧
      ∃ b c, (s.peers 0).chain.reverse[0]? = some b ∧ (s.peers 2).chain.reverse[0]? = some c ∧
        b.prevHash = zeroHash ∧ c.prevHash = b.hash ∧ c.prevHash ≠ zeroHash := by
  refine ⟨by decide, ?_⟩
  have hcheck : (run (step sampleConfig) (.init fun _ _ => none) lateRead).any (fun s : System 3 =>
      decide (0 < (s.peers 0).step ∧ 0 < (s.peers 2).step) &&
      ((s.peers 0).chain.reverse[0]?).any fun b => ((s.peers 2).chain.reverse[0]?).any fun c =>
        decide (b.prevHash = zeroHash ∧ c.prevHash = b.hash ∧ c.prevHash ≠ zeroHash)) = true := by
    decide
  obtain ⟨s, hrun, hs⟩ := (Option.any_eq_true _ _).mp hcheck
  rw [Bool.and_eq_true, decide_eq_true_eq] at hs
  obtain ⟨b, hb, hs'⟩ := (Option.any_eq_true _ _).mp hs.2
  obtain ⟨c, hc, hblocks⟩ := (Option.any_eq_true _ _).mp hs'
  exact ⟨s, hrun, hs.1.1, hs.1.2, b, c, hb, hc, of_decide_eq_true hblocks⟩

end MarketPeer.Naming
