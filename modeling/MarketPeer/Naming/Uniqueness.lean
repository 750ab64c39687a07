import MarketPeer.Naming.Invariant

/-!
# A name is bound once

`Tag` looks the name up, and then `Propose` reads the step. A peer that proposes a
name in a step has stored the names of all steps before, so when the name is still
free at that moment, no step before has decided on it.
-/

namespace MarketPeer.Naming

open MarketPeer.Paxos (PaxosValue)

variable {N : Nat}

/-! ## Conditions -/

/-- A learner learns what was proposed in its step. -/
def Valid (s : System N) : Event N → Prop
  | .learn i v => ((s.peers i).step, v) ∈ s.proposed
  | _ => True

instance (s : System N) : (e : Event N) → Decidable (Valid s e)
  | .learn i v => inferInstanceAs (Decidable (((s.peers i).step, v) ∈ s.proposed))
  | .tag _ _ | .checkName _ | .propose _ | .finish _ | .proposeReturns _ | .assemble _ | .broadcast _
  | .receive _ _ | .readTLC _ | .storeBlock _ | .writeName _ | .announce _ | .advance _ => isTrue trivial

/-- When `Propose` starts a proposal, the name is not in the naming store of the peer. -/
def ProposesFree (s : System N) : Event N → Prop
  | .propose k => ∀ c ∈ s.calls[k]?, (s.peers c.peer).onProposing = false →
      (s.peers c.peer).naming c.value.filename = none
  | _ => True

instance (s : System N) : (e : Event N) → Decidable (ProposesFree s e)
  | .propose k => inferInstanceAs (Decidable (∀ c ∈ s.calls[k]?, (s.peers c.peer).onProposing = false →
      (s.peers c.peer).naming c.value.filename = none))
  | .tag _ _ | .checkName _ | .learn _ _ | .finish _ | .proposeReturns _ | .assemble _ | .broadcast _
  | .receive _ _ | .readTLC _ | .storeBlock _ | .writeName _ | .announce _ | .advance _ => isTrue trivial

/-! ## The names that are written -/

/-- The blocks whose name is in the naming store: all of the chain, but for one that is being stored. -/
def Peer.named (p : Peer) : List Block := if p.locked then p.chain.tail else p.chain

section Steps

variable {cfg : Config} {s s' : System N}

/-- A store leaves the names as they are: the new block is not among them yet. -/
theorem storeBlock_names {p p' : Peer} (h : storeBlock p = some p') :
    p'.naming = p.naming ∧ p'.named = p.named := by
  obtain ⟨tlc, catchingup, hdaemon, ⟨-, rfl⟩ | rfl⟩ := storeBlock_eq_some h
  all_goals
    refine ⟨rfl, ?_⟩
    simp only [Peer.named, Peer.locked, hdaemon, Bool.false_eq_true, if_false, if_true, List.tail_cons]

theorem writeName_names {sent : List TLC} {made : List Block} {learned : List (Nat × PaxosValue)} {p p' : Peer}
    (hok : PeerOk sent made learned p) (h : writeName p = some p') :
    ∃ t ∈ sent, Counted (t.block :: p.named) ∧ p'.named = t.block :: p.named ∧
      p'.naming = Function.update p.naming t.block.value.filename (some t.block.value.metahash) := by
  obtain ⟨tlc, catchingup, tlcSent, broadcast, hdaemon, rfl⟩ := writeName_eq_some h
  have hchain : p.chain = tlc.block :: p.named := by
    unfold Peer.named Peer.locked
    rw [hdaemon]
    exact (List.cons_head?_tail (hok.newest tlc (by rw [hdaemon]; rfl))).symm
  exact ⟨tlc, (hok.current tlc (by rw [hdaemon]; rfl)).1, hchain ▸ hok.counted, hchain, rfl⟩

theorem named_subset_chain (p : Peer) : p.named ⊆ p.chain := by
  unfold Peer.named
  split_ifs
  · exact List.tail_subset p.chain
  · exact List.Subset.refl _

/-- The names of a peer over a step: nothing, or `onConsensusReach` writes the name of the block that was
stored. -/
def NamesStep (sent : List TLC) (p p' : Peer) : Prop :=
  (p'.naming = p.naming ∧ p'.named = p.named) ∨
    ∃ t ∈ sent, Counted (t.block :: p.named) ∧ p'.named = t.block :: p.named ∧
      p'.naming = Function.update p.naming t.block.value.filename (some t.block.value.metahash)

theorem NamesStep.refl (sent : List TLC) (p : Peer) : NamesStep sent p p := Or.inl ⟨rfl, rfl⟩

/-- With more than one peer, only `tlcDaemon` touches the names. -/
theorem step_names (hN : 2 ≤ N) (hbase : Base cfg s) (e : Event N) (h : step cfg s e = some s') (j : Fin N) :
    NamesStep s.sent (s.peers j) (s'.peers j) := by
  have hset : ∀ (i : Fin N) (p : Peer), NamesStep s.sent (s.peers i) p →
      NamesStep s.sent (s.peers j) ((s.setPeer i p).peers j) := by
    intro i p hp
    by_cases hj : j = i
    · subst hj
      rw [setPeer_same]
      exact hp
    · rw [setPeer_other i j hj]
      exact NamesStep.refl _ _
  have hsame : ∀ (i : Fin N) (p : Peer), p.naming = (s.peers i).naming → p.named = (s.peers i).named →
      NamesStep s.sent (s.peers j) ((s.setPeer i p).peers j) := by
    intro i p hnaming hnamed
    exact hset i p (Or.inl ⟨hnaming, hnamed⟩)
  cases e with
  | tag i v =>
    rw [← Option.some.inj h]
    unfold tag
    rw [if_neg (by omega)]
    exact NamesStep.refl _ _
  | checkName k =>
    obtain ⟨calls, rfl⟩ := checkName_eq_some k h
    exact NamesStep.refl _ _
  | propose k =>
    rcases propose_eq_some k h with ⟨calls, rfl⟩ | ⟨i, v, calls, -, -, -, rfl⟩
    · exact NamesStep.refl _ _
    · exact hsame i { s.peers i with onProposing := true } rfl rfl
  | finish k =>
    obtain ⟨i, calls, stepFinish, rfl⟩ := finish_eq_some k h
    exact hsame i { s.peers i with stepFinish } rfl rfl
  | proposeReturns i =>
    obtain ⟨p, hp, rfl⟩ := Option.map_eq_some_iff.mp h
    rw [proposeReturns_eq_some hp]
    exact hsame i _ rfl rfl
  | learn i v =>
    obtain ⟨p, hp, rfl⟩ := Option.map_eq_some_iff.mp h
    rw [learn_eq_some hp]
    exact hsame i { s.peers i with learner := .learned v } rfl rfl
  | assemble i =>
    simp only [step] at h
    split at h
    · rename_i v hv
      rw [← Option.some.inj h]
      exact hsame i { s.peers i with learner := .assembled (assemble cfg (s.peers i) v) } rfl rfl
    · cases h
  | broadcast i =>
    simp only [step] at h
    split at h
    · rw [← Option.some.inj h]
      exact hsame i { s.peers i with learner := .waiting } rfl rfl
    · cases h
  | receive i rumor =>
    simp only [step] at h
    split_ifs at h
    obtain ⟨tlc, -, h⟩ := Option.bind_eq_some_iff.mp h
    obtain ⟨p, hp, rfl⟩ := Option.map_eq_some_iff.mp h
    rcases tlcCallback_eq_some hp with rfl | rfl
    all_goals exact hsame i _ rfl rfl
  | readTLC i =>
    obtain ⟨p, hp, rfl⟩ := Option.map_eq_some_iff.mp h
    obtain ⟨tlc, rest, hidle, -, rfl | ⟨daemon, hdaemon, rfl⟩⟩ := readTLC_eq_some hp
    · exact hsame i _ rfl rfl
    · refine hsame i _ rfl ?_
      unfold Peer.named Peer.locked
      rw [hidle]
      rcases hdaemon with rfl | ⟨rfl, -⟩ <;> rfl
  | storeBlock i =>
    obtain ⟨p, hp, rfl⟩ := Option.map_eq_some_iff.mp h
    exact hset i p (Or.inl (storeBlock_names hp))
  | writeName i =>
    obtain ⟨p, hp, rfl⟩ := Option.map_eq_some_iff.mp h
    exact hset i p (Or.inr (writeName_names (hbase.peers i) hp))
  | announce i =>
    simp only [step] at h
    split at h
    · rename_i tlc broadcast hdaemon
      rw [← Option.some.inj h]
      refine hsame i { s.peers i with daemon := .advancing tlc } rfl ?_
      unfold Peer.named Peer.locked
      rw [hdaemon]
    · cases h
  | advance i =>
    obtain ⟨p, hp, rfl⟩ := Option.map_eq_some_iff.mp h
    obtain ⟨tlc, hdaemon, ⟨-, rfl⟩ | ⟨daemon, hnext, rfl⟩⟩ := advance_eq_some hp
    · refine hsame i _ rfl ?_
      unfold Peer.named Peer.locked
      rw [hdaemon]
    · refine hsame i _ rfl ?_
      unfold Peer.named Peer.locked
      rw [hdaemon]
      rcases hnext with rfl | ⟨msg, -, rfl⟩ <;> rfl

/-- A name that is written stays written. -/
theorem step_named_subset (hN : 2 ≤ N) (hbase : Base cfg s) (e : Event N) (h : step cfg s e = some s') (j : Fin N) :
    (s.peers j).named ⊆ (s'.peers j).named := by
  rcases step_names hN hbase e h j with ⟨-, hnamed⟩ | ⟨t, -, -, hnamed, -⟩
  · rw [hnamed]
    exact List.Subset.refl _
  · rw [hnamed]
    exact List.subset_cons_self _ _

end Steps

/-! ## The invariant -/

structure BoundOnce (cfg : Config) (s : System N) : Prop where
  base : Base cfg s
  oneValue : OneValue s
  valid : s.learned ⊆ s.proposed
  free : ∀ x ∈ s.proposed, ∀ k < x.1, ∃ v, (k, v) ∈ s.learned ∧ v.filename ≠ x.2.filename
  names : ∀ i, ∀ b ∈ (s.peers i).named, (s.peers i).naming b.value.filename = some b.value.metahash

section Invariant

variable {cfg : Config} {s s' : System N}

theorem BoundOnce.filename_ne (h : BoundOnce cfg s) {b c : Block} (hb : b ∈ s.made) (hc : c ∈ s.made)
    (hlt : b.index < c.index) : b.value.filename ≠ c.value.filename := by
  have hlearned := (h.base.made b hb).1
  obtain ⟨v, hv, hne⟩ := h.free _ (h.valid (h.base.made c hc).1) b.index hlt
  rw [h.oneValue _ _ _ hlearned hv]
  exact hne

/-- A peer that proposes a free name has stored all steps before, and none of them took the name. -/
theorem proposes_free (h : BoundOnce cfg s) (i : Fin N) (v : PaxosValue) (hunlocked : (s.peers i).locked = false)
    (hfree : (s.peers i).naming v.filename = none) (k : Nat) (hk : k < (s.peers i).step) :
    ∃ w, (k, w) ∈ s.learned ∧ w.filename ≠ v.filename := by
  have hpeer := h.base.peers i
  have hheight := hpeer.height
  obtain ⟨b, hb, rfl⟩ := hpeer.counted.exists_index k (by split_ifs at hheight <;> omega)
  refine ⟨b.value, (h.base.made b (hpeer.blocks b hb)).1, ?_⟩
  intro heq
  have hnamed : b ∈ (s.peers i).named := by
    unfold Peer.named
    rw [hunlocked]
    exact hb
  have hname := h.names i b hnamed
  rw [heq, hfree] at hname
  cases hname

theorem step_names_written (hN : 2 ≤ N) (h : BoundOnce cfg s) (e : Event N) (hstep : step cfg s e = some s')
    (j : Fin N) (b : Block) (hb : b ∈ (s'.peers j).named) :
    (s'.peers j).naming b.value.filename = some b.value.metahash := by
  rcases step_names hN h.base e hstep j with ⟨hnaming, hnamed⟩ | ⟨t, ht, hcounted, hnamed, hnaming⟩
  · rw [hnamed] at hb
    rw [hnaming]
    exact h.names j b hb
  · rw [hnamed] at hb
    rw [hnaming]
    rcases List.mem_cons.mp hb with rfl | hb
    · exact Function.update_self _ _ _
    · -- An older block has an older index, so another name.
      have hlt : b.index < t.block.index := by
        rw [hcounted.1]
        exact hcounted.2.index_lt b hb
      have hne := h.filename_ne ((h.base.peers j).blocks b (named_subset_chain _ hb)) (h.base.sent t ht).1 hlt
      rw [Function.update_of_ne hne]
      exact h.names j b hb

theorem step_boundOnce (hN : 2 ≤ N) (s : System N) (e : Event N) (s' : System N) (h : BoundOnce cfg s)
    (hcond : (Agrees s e ∧ Valid s e) ∧ ProposesFree s e) (hstep : step cfg s e = some s') : BoundOnce cfg s' := by
  obtain ⟨-, hlearned, hproposed⟩ := step_records e hstep
  have hgrow : s.learned ⊆ s'.learned := by
    rcases hlearned with hsame | ⟨i, v, -, hnew⟩
    · rw [hsame]
      exact List.Subset.refl _
    · rw [hnew]
      exact List.subset_append_left _ _
  have hgrow' : s.proposed ⊆ s'.proposed := by
    rcases hproposed with hsame | ⟨k, i, v, -, -, -, -, hnew⟩
    · rw [hsame]
      exact List.Subset.refl _
    · rw [hnew]
      exact List.subset_append_left _ _
  refine ⟨step_base h.base e hstep, step_oneValue e h.oneValue hcond.1.1 hstep, ?_, ?_,
    step_names_written hN h e hstep⟩
  · rcases hlearned with hsame | ⟨i, v, rfl, hnew⟩
    · rw [hsame]
      exact fun x hx => hgrow' (h.valid hx)
    · rw [hnew]
      intro x hx
      rcases List.mem_append.mp hx with hx | hx
      · exact hgrow' (h.valid hx)
      · rw [List.mem_singleton.mp hx]
        exact hgrow' hcond.1.2
  · intro x hx k hk
    have hold : x ∈ s.proposed → ∃ v, (k, v) ∈ s'.learned ∧ v.filename ≠ x.2.filename := by
      intro hx
      obtain ⟨v, hv, hne⟩ := h.free x hx k hk
      exact ⟨v, hgrow hv, hne⟩
    rcases hproposed with hsame | ⟨m, i, v, rfl, hcall, hunlocked, hready, hnew⟩
    · exact hold (hsame ▸ hx)
    · rw [hnew] at hx
      rcases List.mem_append.mp hx with hx | hx
      · exact hold hx
      · rw [List.mem_singleton.mp hx] at hk ⊢
        obtain ⟨w, hw, hne⟩ := proposes_free h i v hunlocked (hcond.2 _ hcall hready) k hk
        exact ⟨w, hgrow hw, hne⟩

theorem boundOnce_init (cfg : Config) (naming : Fin N → String → Option String) : BoundOnce cfg (.init naming) := by
  refine ⟨base_init cfg naming, ?_, ?_, ?_, ?_⟩
  all_goals simp [System.init, OneValue, Peer.named, Peer.locked, Peer.init]

end Invariant

/-- Consensus on what was proposed, and only free names proposed: two blocks with one name are one block, and what
a peer has written for a name it never writes over. -/
theorem names_bound_once (cfg : Config) (hN : 2 ≤ N) (naming : Fin N → String → Option String)
    (es later : List (Event N)) (s s' : System N) (hrun : run (step cfg) (.init naming) es = some s)
    (hlater : run (step cfg) s later = some s')
    (hagrees : Meets (step cfg) Agrees (.init naming) (es ++ later))
    (hvalid : Meets (step cfg) Valid (.init naming) (es ++ later))
    (hfree : Meets (step cfg) ProposesFree (.init naming) (es ++ later)) :
    (∀ i j, ∀ b ∈ (s'.peers i).chain, ∀ c ∈ (s'.peers j).chain,
      b.value.filename = c.value.filename → b.index = c.index ∧ b.value = c.value) ∧
    ∀ i, ∀ b ∈ (s.peers i).named, (s'.peers i).naming b.value.filename = some b.value.metahash := by
  have hmeets := meets_and _ (meets_and _ hagrees hvalid) hfree
  have h : BoundOnce cfg s' :=
    run_invariant (BoundOnce cfg) (step_boundOnce hN) (es ++ later) (boundOnce_init cfg naming) hmeets
      (run_append es later hrun hlater)
  refine ⟨?_, ?_⟩
  · intro i j b hb c hc hname
    have hb := (h.base.peers i).blocks b hb
    have hc := (h.base.peers j).blocks c hc
    have hindex : b.index = c.index := by
      rcases Nat.lt_trichotomy b.index c.index with hlt | heq | hlt
      · exact absurd hname (h.filename_ne hb hc hlt)
      · exact heq
      · exact absurd hname.symm (h.filename_ne hc hb hlt)
    refine ⟨hindex, h.oneValue c.index _ _ ?_ (h.base.made c hc).1⟩
    rw [← hindex]
    exact (h.base.made b hb).1
  · intro i b hb
    apply h.names i b
    have hbase : Base cfg s :=
      run_preserves (Base cfg) (fun s e s' hbase => step_base hbase e) es (base_init cfg naming) hrun
    have hstays : Base cfg s' ∧ b ∈ (s'.peers i).named := by
      refine run_preserves (fun s => Base cfg s ∧ b ∈ (s.peers i).named) ?_ later ⟨hbase, hb⟩ hlater
      intro s e s' hs hstep
      exact ⟨step_base hs.1 e hstep, step_named_subset hN hs.1 e hstep i hs.2⟩
    exact hstays.2

def secondValue : PaxosValue := ⟨"b", "other", "2"⟩

/-- Two names, one step each. -/
theorem sampleTags_bound :
    ∃ s s' : System 2,
      run (step sampleConfig) (.init fun _ _ => none)
        ([.tag 0 sampleValue, .checkName 0, .propose 0] ++ sampleRound sampleValue 0) = some s ∧
      run (step sampleConfig) s ([.tag 1 secondValue, .checkName 1, .propose 1] ++ sampleRound secondValue 2) =
        some s' ∧
      ∃ b ∈ (s.peers 0).named, (s'.peers 0).naming b.value.filename = some b.value.metahash ∧
        (s'.peers 0).chain.length = 2 := by
  have hcheck : (run (step sampleConfig) (.init fun _ _ => none)
      ([.tag 0 sampleValue, .checkName 0, .propose 0] ++ sampleRound sampleValue 0)).any (fun s : System 2 =>
        (s.peers 0).named.length = 1 &&
        (run (step sampleConfig) s ([.tag 1 secondValue, .checkName 1, .propose 1] ++ sampleRound secondValue 2)).any
          fun s' : System 2 => (s'.peers 0).chain.length = 2) = true := by
    decide +kernel
  obtain ⟨s, hrun, hs⟩ := (Option.any_eq_true _ _).mp hcheck
  rw [Bool.and_eq_true, decide_eq_true_eq] at hs
  obtain ⟨s', hlater, hs'⟩ := (Option.any_eq_true _ _).mp hs.2
  obtain ⟨b, hb⟩ := List.length_eq_one_iff.mp hs.1
  have hmem : b ∈ (s.peers 0).named := by
    rw [hb]
    exact List.mem_singleton.mpr rfl
  have hnames := (names_bound_once sampleConfig (by omega) (fun _ _ => none) _ _ s s' hrun hlater
    (by decide +kernel) (by decide +kernel) (by decide +kernel)).2 0 b hmem
  exact ⟨s, s', hrun, hlater, b, hmem, hnames, of_decide_eq_true hs'⟩

def rivalValue : PaxosValue := ⟨"b", "file", "2"⟩

/-- Both peers look the name up, then the first one gets it; the second proposes it in the next step. -/
theorem rivalTag_rebinds :
    ∃ es later, Meets (step sampleConfig) Agrees (.init fun _ _ => none : System 2) (es ++ later) ∧
      Meets (step sampleConfig) Valid (.init fun _ _ => none : System 2) (es ++ later) ∧
      ∃ s s', run (step sampleConfig) (.init fun _ _ => none : System 2) es = some s ∧
        run (step sampleConfig) s later = some s' ∧
        (s.peers 0).naming "file" = some "1" ∧ (s'.peers 0).naming "file" = some "2" ∧
        (s'.peers 0).chain.map (fun b => (b.index, b.value.filename)) = [(1, "file"), (0, "file")] := by
  refine ⟨[.tag 0 sampleValue, .tag 1 rivalValue, .checkName 0, .checkName 1, .propose 0] ++ sampleRound sampleValue 0,
    [.propose 1] ++ sampleRound rivalValue 2, by decide +kernel, by decide +kernel, ?_⟩
  have hcheck : (run (step sampleConfig) (.init fun _ _ => none)
      ([.tag 0 sampleValue, .tag 1 rivalValue, .checkName 0, .checkName 1, .propose 0] ++
        sampleRound sampleValue 0)).any (fun s : System 2 =>
        (s.peers 0).naming "file" = some "1" &&
        (run (step sampleConfig) s ([.propose 1] ++ sampleRound rivalValue 2)).any fun s' : System 2 =>
          (s'.peers 0).naming "file" = some "2" ∧
          (s'.peers 0).chain.map (fun b => (b.index, b.value.filename)) = [(1, "file"), (0, "file")]) = true := by
    decide +kernel
  obtain ⟨s, hrun, hs⟩ := (Option.any_eq_true _ _).mp hcheck
  rw [Bool.and_eq_true, decide_eq_true_eq] at hs
  obtain ⟨s', hlater, hs'⟩ := (Option.any_eq_true _ _).mp hs.2
  have hfields := of_decide_eq_true hs'
  exact ⟨s, s', hrun, hlater, hs.1, hfields.1, hfields.2⟩

end MarketPeer.Naming
