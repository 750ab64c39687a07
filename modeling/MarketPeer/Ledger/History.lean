import MarketPeer.Ledger.Commitment
import MarketPeer.Ledger.RoundTrip
import MarketPeer.Ledger.Transition
import MarketPeer.Lib.Chunks

/-!
# One end, one history

The hash of a block commits to the hash of its parent and to its transactions, so that
two miners whose chains meet in one hash have the same blocks from there down to genesis,
whatever messages each of them has got.
-/

namespace MarketPeer.Ledger

variable {F : Type}

/-! ## Hashes of 64 digits -/

theorem isHexDigit_hexDigit : ∀ n < 16, IsHexDigit (hexDigit n) := by decide

theorem isHexHash_hexEncode {bs : Bytes} (h : bs.length = 32) : IsHexHash (hexEncode bs) := by
  refine ⟨by rw [length_hexEncode, h], ?_⟩
  intro c hc
  rw [hexEncode, String.toList_ofList] at hc
  obtain ⟨b, -, hc⟩ := List.mem_flatMap.mp hc
  have hb := b.toNat_lt
  rcases List.mem_cons.mp hc with rfl | hc
  · exact isHexDigit_hexDigit _ (by omega)
  · rw [List.mem_singleton.mp hc]
    exact isHexDigit_hexDigit _ (by omega)

/-! ## What a hash commits to -/

variable [Float64 F]

/-- What goes through SHA-256 for the hash of the block and the hash of its transactions. -/
def Block.texts (env : Env F) (b : Block F) : List Bytes :=
  [stringBytes b.header.written,
    b.header.hash env ++ stringBytes b.header.stateHash ++ stringBytes b.header.transactionsHash ++
      stringBytes b.header.receiptsHash,
    b.transactions.flatMap (txnHashBytes env)]

/-- All but the numbers and the address of the header are the same. -/
structure SameBlock (env : Env F) (b b' : Block F) : Prop where
  hash : b.hash env = b'.hash env
  parentHash : b.header.parentHash = b'.header.parentHash
  stateHash : b.header.stateHash = b'.header.stateHash
  hasTxn : ∀ handle, handle ≠ "" → b.hasTxn env handle = b'.hasTxn env handle

/-- A block whose header has the hashes of its body, and of a parent. -/
structure Block.Good (env : Env F) (b : Block F) : Prop where
  sealed : b.Sealed env
  parentHash : IsHexHash b.header.parentHash
  real : b.hash env ≠ DUMMY_PARENT_HASH

section Commits

variable {env : Env F} (hlength : ∀ bs, (env.sha256 bs).length = 32)
include hlength

theorem Block.Good.hexHashes {b : Block F} (hb : b.Good env) : b.header.HexHashes := by
  obtain ⟨bs, -, hstate⟩ := hb.sealed.state
  obtain ⟨rs, -, hreceipts⟩ := hb.sealed.receipts
  refine ⟨hb.parentHash, ?_, ?_, ?_⟩
  · rw [hstate]
    exact isHexHash_hexEncode (hlength bs)
  · rw [hb.sealed.transactions]
    exact isHexHash_hexEncode (hlength _)
  · rw [hreceipts]
    exact isHexHash_hexEncode (hlength rs)

/-- The hash of a transaction has 32 bytes, or none if it cannot be marshalled. -/
theorem txnHashBytes_length (t : Option (SignedTransaction F)) :
    txnHashBytes env t = [] ∨ (txnHashBytes env t).length = 32 := by
  unfold txnHashBytes hashJson
  cases t.elim (some "null") (·.json) with
  | none => exact .inl rfl
  | some text => exact .inr (hlength _)

/-- Hashes in a row can be told from each other, those of no bytes apart. -/
theorem filter_eq_of_flatMap_eq {ts ts' : List (Option (SignedTransaction F))}
    (h : ts.flatMap (txnHashBytes env) = ts'.flatMap (txnHashBytes env)) :
    (ts.map (txnHashBytes env)).filter (· ≠ []) = (ts'.map (txnHashBytes env)).filter (· ≠ []) := by
  have hlengths (us : List (Option (SignedTransaction F))) :
      ∀ bs ∈ (us.map (txnHashBytes env)).filter (· ≠ []), bs.length = 32 := by
    intro bs hbs
    obtain ⟨hbs, hne⟩ := List.mem_filter.mp hbs
    obtain ⟨t, -, rfl⟩ := List.mem_map.mp hbs
    exact (txnHashBytes_length hlength t).resolve_left (of_decide_eq_true hne)
  refine eq_of_flatten_eq (by decide) (hlengths ts) (hlengths ts') ?_
  rw [List.flatten_filter_ne_nil, List.flatten_filter_ne_nil, ← List.flatMap_def, ← List.flatMap_def]
  exact h

omit hlength in
theorem hasTxn_iff (b : Block F) {handle : String} (hhandle : handle ≠ "") :
    b.hasTxn env handle = true ↔
      ∃ bs ∈ (b.transactions.map (txnHashBytes env)).filter (· ≠ []), hexEncode bs = handle := by
  have hne (t : Option (SignedTransaction F)) (h : hexEncode (txnHashBytes env t) = handle) :
      txnHashBytes env t ≠ [] := by
    rintro hnil
    rw [hnil] at h
    exact hhandle h.symm
  simp only [Block.hasTxn, List.any_eq_true, txnHash, decide_eq_true_eq, List.mem_filter, List.mem_map]
  constructor
  · rintro ⟨t, ht, h⟩
    have h := of_decide_eq_true h
    exact ⟨_, ⟨⟨t, ht, rfl⟩, hne t h⟩, h⟩
  · rintro ⟨bs, ⟨⟨t, ht, rfl⟩, -⟩, h⟩
    exact ⟨t, ht, decide_eq_true h⟩

variable {b b' : Block F} (hb : b.Good env) (hb' : b'.Good env) (hfree : CollisionFree env (b.texts env ++ b'.texts env))
include hb hb' hfree

theorem sameBlock_of_hash (h : b.hash env = b'.hash env) : SameBlock env b b' := by
  have hok := hb.hexHashes hlength
  have hok' := hb'.hexHashes hlength
  have hheader := hfree _ (by simp [Block.texts]) _ (by simp [Block.texts]) (hexEncode_injective h)
  have hsums : b.header.hash env = b'.header.hash env := by
    simp only [List.append_assoc] at hheader
    refine (List.append_inj hheader ?_).1
    rw [hash_eq_written, hash_eq_written, hlength, hlength]
  rw [hash_eq_written, hash_eq_written] at hsums
  have hwritten := stringBytes_injective (hfree _ (by simp [Block.texts]) _ (by simp [Block.texts]) hsums)
  obtain ⟨hparent, -, hstate, htxns, -⟩ := written_hashes hok hok' hwritten
  refine ⟨h, hparent, hstate, ?_⟩
  intro handle hhandle
  rw [hb.sealed.transactions, hb'.sealed.transactions] at htxns
  have hflat := hfree _ (by simp [Block.texts]) _ (by simp [Block.texts]) (hexEncode_injective htxns)
  rw [Bool.eq_iff_iff, hasTxn_iff b hhandle, hasTxn_iff b' hhandle, filter_eq_of_flatMap_eq hlength hflat]

end Commits

/-! ## Two chains -/

omit [Float64 F] in
theorem CollisionFree.subset {env : Env F} {texts texts' : List Bytes} (h : CollisionFree env texts)
    (hsub : texts' ⊆ texts) : CollisionFree env texts' :=
  fun x hx y hy => h x (hsub hx) y (hsub hy)

theorem subset_texts {env : Env F} {b : Block F} {blocks : List (Block F)} (hb : b ∈ blocks) :
    b.texts env ⊆ blocks.flatMap (Block.texts env) :=
  fun _ hz => List.mem_flatMap.mpr ⟨b, hb, hz⟩

theorem texts_subset {env : Env F} {blocks blocks' : List (Block F)} (h : blocks ⊆ blocks') :
    blocks.flatMap (Block.texts env) ⊆ blocks'.flatMap (Block.texts env) := by
  intro z hz
  obtain ⟨b, hb, hz⟩ := List.mem_flatMap.mp hz
  exact subset_texts (h hb) hz

omit [Float64 F] in
theorem linked_suffix {env : Env F} {blocks below : List (Block F)} (h : below <:+ blocks) (hlinked : Linked env blocks) :
    Linked env below := by
  obtain ⟨above, rfl⟩ := h
  induction above with
  | nil => exact hlinked
  | cons b above ih => exact ih hlinked.2

section Chains

variable {env : Env F} (hlength : ∀ bs, (env.sha256 bs).length = 32)
include hlength

/-- Two chains that end in one hash are the same all the way down. -/
theorem same_below {blocks blocks' : List (Block F)} (hgood : ∀ b ∈ blocks, b.Good env)
    (hgood' : ∀ b ∈ blocks', b.Good env) (hlinked : Linked env blocks) (hlinked' : Linked env blocks')
    (hfree : CollisionFree env ((blocks ++ blocks').flatMap (Block.texts env)))
    (htip : tipHash env blocks = tipHash env blocks') : List.Forall₂ (SameBlock env) blocks blocks' := by
  induction blocks generalizing blocks' with
  | nil =>
    cases blocks' with
    | nil => exact .nil
    | cons b' rest' => exact ((hgood' b' List.mem_cons_self).real htip.symm).elim
  | cons b rest ih =>
    cases blocks' with
    | nil => exact ((hgood b List.mem_cons_self).real htip).elim
    | cons b' rest' =>
      rw [List.forall_mem_cons] at hgood hgood'
      have hsame : SameBlock env b b' := by
        refine sameBlock_of_hash hlength hgood.1 hgood'.1 (hfree.subset ?_) htip
        exact List.append_subset.mpr ⟨subset_texts (by simp), subset_texts (by simp)⟩
      refine .cons hsame (ih hgood.2 hgood'.2 hlinked.2 hlinked'.2 (hfree.subset ?_) ?_)
      · exact texts_subset (List.append_subset.mpr ⟨fun c hc => by simp [hc], fun c hc => by simp [hc]⟩)
      · rw [← hlinked.1, ← hlinked'.1]
        exact hsame.parentHash

/-- A chain does not pass one hash twice. -/
theorem hashes_nodup {blocks : List (Block F)} (hgood : ∀ b ∈ blocks, b.Good env) (hlinked : Linked env blocks)
    (hfree : CollisionFree env (blocks.flatMap (Block.texts env))) : (blocks.map (Block.hash env)).Nodup := by
  induction blocks with
  | nil => exact List.nodup_nil
  | cons b rest ih =>
    rw [List.map_cons, List.nodup_cons]
    refine ⟨?_, ih (fun c hc => hgood c (List.mem_cons_of_mem b hc)) hlinked.2 ?_⟩
    · intro hmem
      obtain ⟨c, hc, hhash⟩ := List.mem_map.mp hmem
      obtain ⟨above, below, rfl⟩ := List.append_of_mem hc
      have hsuffix : c :: below <:+ b :: (above ++ c :: below) := ⟨b :: above, rfl⟩
      have hsame := same_below hlength hgood (fun d hd => hgood d (hsuffix.subset hd)) hlinked
        (linked_suffix hsuffix hlinked)
        (hfree.subset (texts_subset (List.append_subset.mpr ⟨List.Subset.refl _, hsuffix.subset⟩))) hhash.symm
      have hlengths := hsame.length_eq
      simp only [List.length_cons, List.length_append] at hlengths
      omega
    · exact hfree.subset (texts_subset (List.subset_cons_self b rest))

omit hlength in
/-- The same blocks, and a transaction is in the same place. -/
theorem txnDepth_same {blocks blocks' : List (Block F)} (h : List.Forall₂ (SameBlock env) blocks blocks')
    {handle : String} (hhandle : handle ≠ "") : txnDepth env blocks handle = txnDepth env blocks' handle := by
  unfold txnDepth
  induction h with
  | nil => rfl
  | cons hb _ ih => rw [List.findIdx?_cons, List.findIdx?_cons, hb.hasTxn handle hhandle, ih]

end Chains

/-! ## Miners -/

/-- Where the chain of a miner starts. -/
structure Block.IsGenesis (env : Env F) (g : Block F) : Prop where
  sealed : g.Sealed env
  parentHash : g.header.parentHash = DUMMY_PARENT_HASH
  number : g.header.number = 0

theorem blockMsgCallback_sealed {env : Env F} {m : Miner} {source : String} {msg : BlockMessage F} {b : Block F}
    (h : blockMsgCallback env m source msg = .ok (some b)) : b.Sealed env := by
  unfold blockMsgCallback at h
  split_ifs at h
  · cases h
  · split at h
    · cases h
    · simp only [Outcome.bind_eq_ok, Outcome.pure_eq, Outcome.ok.injEq, Option.some.injEq] at h
      obtain ⟨accounts, -, b', hb', rfl⟩ := h
      exact build_sealed env _ b' hb'

/-- A round of the miner is an append, or it changes nothing. -/
theorem receiveBlock_append {env : Env F} {m : Miner} {s s' : ChainHistory F} {e : String × BlockMessage F}
    {last : Block F} (hends : s.bc.ends = [last]) (h : receiveBlock env m s e = some s') :
    s' = s ∨ ∃ b, b.Sealed env ∧ b.header.parentHash = last.hash env ∧ s' = s.append env b := by
  unfold receiveBlock at h
  split at h
  · exact .inl (Option.some.inj h).symm
  · exact .inl (Option.some.inj h).symm
  · exact .inl (Option.some.inj h).symm
  · next b hb =>
    split at h
    · cases h
    · next bc' hv =>
      obtain ⟨-, p, w, -, -, -, happend⟩ := verifyBlock_appended env s.bc bc' b hv
      obtain ⟨hcontinues, -⟩ := continues_of_appended env m s.bc bc' e.1 e.2 b last hends hb hv
      refine .inr ⟨b, blockMsgCallback_sealed hb, hcontinues.parent, ?_⟩
      rw [ChainHistory.append, happend]
      exact (Option.some.inj h).symm
    · next v bc' _ happ hv =>
      have hnot : v.isAppended = false := by
        cases v with
        | appended => exact (happ rfl).elim
        | _ => rfl
      left
      rw [← Option.some.inj h, verifyBlock_not_appended env s.bc bc' b last v hends hv hnot]

/-- What the run of a miner keeps. -/
structure Grown (env : Env F) (s : ChainHistory F) : Prop where
  represents : Represents env s.bc s.blocks
  sealed : ∀ b ∈ s.blocks, b.Sealed env
  parentHash : ∀ b ∈ s.blocks, b.header.parentHash = DUMMY_PARENT_HASH ∨ ∃ p, b.header.parentHash = Block.hash env p

theorem genesis_grown {env : Env F} {g : Block F} (hg : g.IsGenesis env) : Grown env (.genesis env g) := by
  refine ⟨represents_genesis env g hg.parentHash hg.number, ?_, ?_⟩
  · simpa [ChainHistory.genesis] using hg.sealed
  · simpa [ChainHistory.genesis] using .inl hg.parentHash

theorem receiveBlock_grown {env : Env F} {m : Miner} {s s' : ChainHistory F} {e : String × BlockMessage F}
    (h : Grown env s) (hstep : receiveBlock env m s e = some s') : Grown env s' := by
  obtain ⟨last, rest, hblocks⟩ := List.exists_cons_of_ne_nil h.represents.nonempty
  have hends : s.bc.ends = [last] := by rw [h.represents.ends, hblocks]; rfl
  rcases receiveBlock_append hends hstep with rfl | ⟨b, hsealed, hparent, rfl⟩
  · exact h
  · have hmem : ∀ c ∈ (s.append env b).blocks, c = b ∨ c ∈ s.blocks := by
      intro c hc
      unfold ChainHistory.append at hc
      split at hc
      · exact List.mem_cons.mp hc
      · exact .inr hc
    refine ⟨append_represents env s b h.represents, ?_, ?_⟩
    · intro c hc
      rcases hmem c hc with rfl | hc
      · exact hsealed
      · exact h.sealed c hc
    · intro c hc
      rcases hmem c hc with rfl | hc
      · exact .inr ⟨last, hparent⟩
      · exact h.parentHash c hc

theorem run_grown {env : Env F} {m : Miner} {g : Block F} (hg : g.IsGenesis env) {msgs : List (String × BlockMessage F)}
    {s : ChainHistory F} (hrun : run (receiveBlock env m) (.genesis env g) msgs = some s) : Grown env s :=
  run_preserves (Grown env) (fun _ _ _ h hstep => receiveBlock_grown h hstep) msgs (genesis_grown hg) hrun

theorem Grown.good {env : Env F} (hlength : ∀ bs, (env.sha256 bs).length = 32) {s : ChainHistory F} (h : Grown env s)
    (hreal : ∀ b ∈ s.blocks, b.hash env ≠ DUMMY_PARENT_HASH) : ∀ b ∈ s.blocks, b.Good env := by
  intro b hb
  refine ⟨h.sealed b hb, ?_, hreal b hb⟩
  rcases h.parentHash b hb with hparent | ⟨p, hparent⟩
  · rw [hparent]
    exact isHexHash_DUMMY_PARENT_HASH
  · rw [hparent]
    exact isHexHash_hexEncode (hlength _)

theorem Grown.answers {env : Env F} (hlength : ∀ bs, (env.sha256 bs).length = 32) {s : ChainHistory F} (h : Grown env s)
    (hreal : ∀ b ∈ s.blocks, b.hash env ≠ DUMMY_PARENT_HASH)
    (hfree : CollisionFree env (s.blocks.flatMap (Block.texts env))) {fuel : Nat} (hfuel : s.blocks.length ≤ fuel) :
    Answers env s.bc s.blocks fuel := by
  have hnodup := hashes_nodup hlength (h.good hlength hreal) h.represents.linked hfree
  exact answers_of_represents s.blocks h.represents (walkable_of_represents env _ _ h.represents hnodup hreal) hfuel

/-- One end, one history. Any two miners, each from its own genesis and after any messages: from a block hash that both
chains have, they have the same blocks down to genesis. If it is the hash of the two ends, every query of the length
and of a transaction has the same answer. SHA-256 must not collide on what the two chains hash. -/
theorem one_end_one_history (env : Env F) (hlength : ∀ bs, (env.sha256 bs).length = 32) (m m' : Miner) (g g' : Block F)
    (hg : g.IsGenesis env) (hg' : g'.IsGenesis env) (msgs msgs' : List (String × BlockMessage F))
    (s s' : ChainHistory F) (hrun : run (receiveBlock env m) (.genesis env g) msgs = some s)
    (hrun' : run (receiveBlock env m') (.genesis env g') msgs' = some s')
    (hfree : CollisionFree env ((s.blocks ++ s'.blocks).flatMap (Block.texts env)))
    (hreal : ∀ b ∈ s.blocks ++ s'.blocks, b.hash env ≠ DUMMY_PARENT_HASH) :
    (∀ below below', below <:+ s.blocks → below' <:+ s'.blocks → tipHash env below = tipHash env below' →
      List.Forall₂ (SameBlock env) below below') ∧
      (tipHash env s.blocks = tipHash env s'.blocks → ∀ fuel, s.blocks.length ≤ fuel →
        s.bc.len fuel = s'.bc.len fuel ∧
        ∀ handle, handle ≠ "" → s.bc.hasTxn env fuel handle = s'.bc.hasTxn env fuel handle) := by
  rw [List.forall_mem_append] at hreal
  have hgrown := run_grown hg hrun
  have hgrown' := run_grown hg' hrun'
  have hgood := hgrown.good hlength hreal.1
  have hgood' := hgrown'.good hlength hreal.2
  have hbelow : ∀ below below', below <:+ s.blocks → below' <:+ s'.blocks → tipHash env below = tipHash env below' →
      List.Forall₂ (SameBlock env) below below' := by
    intro below below' hsuffix hsuffix' htip
    refine same_below hlength (fun b hb => hgood b (hsuffix.subset hb)) (fun b hb => hgood' b (hsuffix'.subset hb))
      (linked_suffix hsuffix hgrown.represents.linked) (linked_suffix hsuffix' hgrown'.represents.linked)
      (hfree.subset (texts_subset ?_)) htip
    exact List.append_subset.mpr ⟨List.Subset.trans hsuffix.subset (List.subset_append_left ..),
      List.Subset.trans hsuffix'.subset (List.subset_append_right ..)⟩
  refine ⟨hbelow, ?_⟩
  intro htip fuel hfuel
  have hsame := hbelow _ _ (List.suffix_refl _) (List.suffix_refl _) htip
  have hanswers := hgrown.answers hlength hreal.1 (hfree.subset (texts_subset (List.subset_append_left ..))) hfuel
  have hanswers' := hgrown'.answers hlength hreal.2 (hfree.subset (texts_subset (List.subset_append_right ..)))
    (hsame.length_eq ▸ hfuel)
  refine ⟨by rw [hanswers.len, hanswers'.len, hsame.length_eq], ?_⟩
  intro handle hhandle
  rw [hanswers.hasTxn, hanswers'.hasTxn, txnDepth_same hsame hhandle]

/-! ## Two miners, one of which gets a stray block first -/

def rootBuilder : BlockBuilder Int := { parentHash := DUMMY_PARENT_HASH }

/-- A block on top of that hash with one payment, which nobody can make yet. -/
def paidOn (parentHash : String) : String × BlockMessage Int :=
  ("127.0.0.1:2", ⟨"127.0.0.1:2", { sampleChild.header with parentHash, difficulty := 0 }, some .new, [some payment]⟩)

theorem two_miners_agree : ∃ g s s', rootBuilder.build digestEnv = .ok g ∧
    run (receiveBlock digestEnv sampleMiner) (.genesis digestEnv g) [paidOn (g.hash digestEnv)] = some s ∧
    run (receiveBlock digestEnv { sampleMiner with addr := "127.0.0.1:3" }) (.genesis digestEnv g)
      [paidOn DUMMY_PARENT_HASH, paidOn (g.hash digestEnv)] = some s' ∧
    s.blocks.any (·.hasTxn digestEnv (txnHash digestEnv (some payment))) ∧
    s.bc.len 2 = s'.bc.len 2 ∧ s.bc.hasTxn digestEnv 2 (txnHash digestEnv (some payment)) =
      s'.bc.hasTxn digestEnv 2 (txnHash digestEnv (some payment)) := by
  have hcheck : (rootBuilder.build digestEnv).any (fun g =>
      (run (receiveBlock digestEnv sampleMiner) (.genesis digestEnv g) [paidOn (g.hash digestEnv)]).any fun s =>
      (run (receiveBlock digestEnv { sampleMiner with addr := "127.0.0.1:3" }) (.genesis digestEnv g)
        [paidOn DUMMY_PARENT_HASH, paidOn (g.hash digestEnv)]).any fun s' =>
      decide (g.header.parentHash = DUMMY_PARENT_HASH ∧ g.header.number = 0 ∧ s.blocks.length ≤ 2 ∧
        CollisionFree digestEnv ((s.blocks ++ s'.blocks).flatMap (Block.texts digestEnv)) ∧
        (∀ b ∈ s.blocks ++ s'.blocks, b.hash digestEnv ≠ DUMMY_PARENT_HASH) ∧
        tipHash digestEnv s.blocks = tipHash digestEnv s'.blocks ∧
        s.blocks.any (·.hasTxn digestEnv (txnHash digestEnv (some payment))) = true ∧
        txnHash digestEnv (some payment) ≠ "")) = true := by
    decide +kernel
  obtain ⟨g, hbuild, hcheck⟩ := (Outcome.any_eq_true ..).mp hcheck
  obtain ⟨s, hrun, hcheck⟩ := (Option.any_eq_true ..).mp hcheck
  obtain ⟨s', hrun', hcheck⟩ := (Option.any_eq_true ..).mp hcheck
  obtain ⟨hparent, hnumber, hfuel, hfree, hreal, htip, hpaid, hhandle⟩ := of_decide_eq_true hcheck
  have hgenesis : g.IsGenesis digestEnv := ⟨build_sealed _ _ _ hbuild, hparent, hnumber⟩
  obtain ⟨hlen, htxn⟩ := (one_end_one_history digestEnv length_sampleSha sampleMiner
    { sampleMiner with addr := "127.0.0.1:3" } g g hgenesis hgenesis _ _ s s' hrun hrun' hfree hreal).2 htip 2 hfuel
  exact ⟨g, s, s', hbuild, hrun, hrun', hpaid, hlen, htxn _ hhandle⟩

end MarketPeer.Ledger
