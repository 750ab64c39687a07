import MarketPeer.Naming.Model

/-!
# What a peer has stored

The TLC messages that a peer works with were sent, the blocks in them were made by
learners, and its chain has one block for each step that it has completed. None of
this needs agreement.
-/

namespace MarketPeer.Naming

open MarketPeer.Paxos (PaxosValue)

/-! ## Chains -/

/-- Newest first: the index of a block is how many are below it. -/
def Counted : List Block → Prop
  | [] => True
  | b :: rest => b.index = rest.length ∧ Counted rest

theorem Counted.getElem? {chain : List Block} (h : Counted chain) (b : Block) (hb : b ∈ chain) :
    chain.reverse[b.index]? = some b := by
  induction chain with
  | nil => cases hb
  | cons c rest ih =>
    rw [List.reverse_cons]
    rcases List.mem_cons.mp hb with rfl | hb
    · rw [h.1, List.getElem?_append_right (by simp)]
      simp
    · have hrest := ih h.2 hb
      obtain ⟨hlt, -⟩ := List.getElem?_eq_some_iff.mp hrest
      rw [List.getElem?_append_left hlt]
      exact hrest

theorem Counted.exists_index {chain : List Block} (h : Counted chain) (k : Nat) (hk : k < chain.length) :
    ∃ b ∈ chain, b.index = k := by
  induction chain with
  | nil => simp at hk
  | cons c rest ih =>
    rw [List.length_cons] at hk
    by_cases heq : k = rest.length
    · exact ⟨c, List.mem_cons_self, by rw [h.1, heq]⟩
    · obtain ⟨b, hb, hindex⟩ := ih h.2 (by omega)
      exact ⟨b, List.mem_cons_of_mem c hb, hindex⟩

theorem Counted.index_lt {chain : List Block} (h : Counted chain) (b : Block) (hb : b ∈ chain) :
    b.index < chain.length := by
  obtain ⟨hlt, -⟩ := List.getElem?_eq_some_iff.mp (h.getElem? b hb)
  simpa using hlt

/-! ## The invariant -/

def Daemon.tlc? : Daemon → Option TLC
  | .idle => none
  | .reached tlc _ => some tlc
  | .storing tlc _ => some tlc
  | .announcing tlc _ => some tlc
  | .advancing tlc => some tlc

/-- The message whose block is stored, between the store and the next step. -/
def Daemon.stored? : Daemon → Option TLC
  | .idle => none
  | .reached _ _ => none
  | .storing tlc _ => some tlc
  | .announcing tlc _ => some tlc
  | .advancing tlc => some tlc

structure PeerOk (sent : List TLC) (made : List Block) (learned : List (Nat × PaxosValue)) (p : Peer) : Prop where
  channel : ∀ t ∈ p.tlcCh, t ∈ sent
  collected : ∀ k, ∀ t ∈ p.stepTLCMsgs k, t ∈ sent ∧ t.step = k
  current : ∀ t, p.daemon.tlc? = some t → t ∈ sent ∧ t.step = p.step
  height : p.chain.length = if p.daemon.stored?.isSome then p.step + 1 else p.step
  newest : ∀ t, p.daemon.stored? = some t → p.chain.head? = some t.block
  counted : Counted p.chain
  blocks : ∀ b ∈ p.chain, b ∈ made
  learned : ∀ v, p.learner = .learned v → (p.step, v) ∈ learned
  assembled : ∀ b, p.learner = .assembled b → b ∈ made ∧ b.index = p.step
  last : p.blockchain LastBlockKey = p.chain.head?.map fun b => .hash b.hash
  stored : ∀ k, k ≠ LastBlockKey →
    p.blockchain k = (p.chain.find? fun b => hexEncode b.hash = k).map .block

variable {N : Nat}

structure Base (cfg : Config) (s : System N) : Prop where
  peers : ∀ i, PeerOk s.sent s.made s.learned (s.peers i)
  sent : ∀ t ∈ s.sent, t.block ∈ s.made ∧ t.block.index = t.step
  made : ∀ b ∈ s.made, (b.index, b.value) ∈ s.learned ∧ b.hash = cfg.sha256 (blockText b.index b.value ++ b.prevHash)

theorem base_init (cfg : Config) (naming : Fin N → String → Option String) : Base cfg (.init naming) where
  peers i := by
    refine ⟨?_, ?_, ?_, rfl, ?_, trivial, ?_, ?_, ?_, rfl, ?_⟩ <;>
      simp [System.init, Peer.init, Daemon.tlc?, Daemon.stored?]
  sent := by simp [System.init]
  made := by simp [System.init]

section Steps

variable {cfg : Config} {s : System N} {sent sent' : List TLC} {made made' : List Block}
  {learned learned' : List (Nat × PaxosValue)} {p p' : Peer}

theorem PeerOk.mono (h : PeerOk sent made learned p) (hsent : sent ⊆ sent') (hmade : made ⊆ made')
    (hlearned : learned ⊆ learned') : PeerOk sent' made' learned' p :=
  { h with
    channel := fun t ht => hsent (h.channel t ht)
    collected := fun k t ht => ⟨hsent (h.collected k t ht).1, (h.collected k t ht).2⟩
    current := fun t ht => ⟨hsent (h.current t ht).1, (h.current t ht).2⟩
    blocks := fun b hb => hmade (h.blocks b hb)
    learned := fun v hv => hlearned (h.learned v hv)
    assembled := fun b hb => ⟨hmade (h.assembled b hb).1, (h.assembled b hb).2⟩ }

@[simp] theorem setPeer_same (i : Fin N) : (s.setPeer i p).peers i = p := by simp [System.setPeer]

theorem setPeer_other (i j : Fin N) (h : j ≠ i) : (s.setPeer i p).peers j = s.peers j := by
  simp [System.setPeer, h]

/-- One peer changes, and the records grow. -/
theorem peers_ok (i : Fin N) (h : ∀ j, PeerOk s.sent s.made s.learned (s.peers j)) (hsent : s.sent ⊆ sent')
    (hmade : s.made ⊆ made') (hlearned : s.learned ⊆ learned') (hp : PeerOk sent' made' learned' p) (j : Fin N) :
    PeerOk sent' made' learned' ((s.setPeer i p).peers j) := by
  by_cases hj : j = i
  · subst hj
    rw [setPeer_same]
    exact hp
  · rw [setPeer_other i j hj]
    exact (h j).mono hsent hmade hlearned

theorem Base.setPeer (h : Base cfg s) (i : Fin N) (hp : PeerOk s.sent s.made s.learned p)
    (calls : List (Call N)) (proposed : List (Nat × PaxosValue)) :
    Base cfg { s.setPeer i p with calls, proposed } :=
  ⟨peers_ok i h.peers (List.Subset.refl _) (List.Subset.refl _) (List.Subset.refl _) hp, h.sent, h.made⟩

/-! ## What the parts of a peer do -/

theorem proposeReturns_eq_some (h : proposeReturns p = some p') : p' = { p with onProposing := false } := by
  unfold proposeReturns at h
  split at h
  · cases h
  · split_ifs at h
    exact (Option.some.inj h).symm

theorem learn_eq_some {v : PaxosValue} (h : learn p v = some p') : p' = { p with learner := .learned v } := by
  unfold learn at h
  split at h
  · exact (Option.some.inj h).symm
  · cases h

theorem tlcCallback_eq_some {tlc : TLC} (h : tlcCallback N p tlc = some p') :
    p' = p ∨ p' = { p with tlcSent := true, tlcCh := p.tlcCh ++ [tlc] } := by
  unfold tlcCallback at h
  split_ifs at h
  · exact Or.inl (Option.some.inj h).symm
  · exact Or.inr (Option.some.inj h).symm

theorem readTLC_eq_some (h : readTLC cfg p = some p') :
    ∃ tlc rest, p.daemon = .idle ∧ p.tlcCh = tlc :: rest ∧
      (p' = { p with tlcCh := rest } ∨
      ∃ daemon, (daemon = .idle ∨ daemon = .reached tlc false ∧ tlc.step = p.step) ∧
        p' = { p with
          tlcCh := rest
          stepTLCMsgs := Function.update p.stepTLCMsgs tlc.step (p.stepTLCMsgs tlc.step ++ [tlc])
          daemon }) := by
  unfold readTLC at h
  split at h
  · rename_i tlc rest hdaemon hch
    refine ⟨tlc, rest, hdaemon, hch, ?_⟩
    dsimp only at h
    split_ifs at h with hold hfew
    · exact Or.inl (Option.some.inj h).symm
    · exact Or.inr ⟨.idle, Or.inl rfl, by rw [← Option.some.inj h, hdaemon]⟩
    · rw [not_or, not_not] at hfew
      exact Or.inr ⟨.reached tlc false, Or.inr ⟨rfl, hfew.2.symm⟩, (Option.some.inj h).symm⟩
  · cases h

theorem storeBlock_eq_some (h : storeBlock p = some p') :
    ∃ tlc catchingup, p.daemon = .reached tlc catchingup ∧
      ((p.step ≠ tlc.step ∧ p' = { p with daemon := .idle }) ∨
      p' = { p with
        blockchain := Function.update (Function.update p.blockchain (hexEncode tlc.block.hash)
          (some (.block tlc.block))) LastBlockKey (some (.hash tlc.block.hash))
        chain := tlc.block :: p.chain
        daemon := .storing tlc catchingup }) := by
  unfold storeBlock at h
  split at h
  · rename_i tlc catchingup hdaemon
    refine ⟨tlc, catchingup, hdaemon, ?_⟩
    split_ifs at h with hstep
    · exact Or.inl ⟨hstep, (Option.some.inj h).symm⟩
    · exact Or.inr (Option.some.inj h).symm
  · cases h

theorem writeName_eq_some (h : writeName p = some p') :
    ∃ tlc catchingup tlcSent broadcast, p.daemon = .storing tlc catchingup ∧
      p' = { p with
        naming := Function.update p.naming tlc.block.value.filename (some tlc.block.value.metahash)
        tlcSent
        daemon := .announcing tlc broadcast } := by
  unfold writeName at h
  split at h
  · rename_i tlc catchingup hdaemon
    exact ⟨tlc, catchingup, _, _, hdaemon, (Option.some.inj h).symm⟩
  · cases h

theorem advance_eq_some (h : advance cfg p = some p') :
    ∃ tlc, p.daemon = .advancing tlc ∧
      ((p.step ≠ tlc.step ∧ p' = { p with daemon := .idle }) ∨
      ∃ daemon, (daemon = .idle ∨ ∃ msg, msg ∈ p.stepTLCMsgs (p.step + 1) ∧ daemon = .reached msg true) ∧
        p' = { p with
          step := p.step + 1
          onProposing := false
          tlcSent := false
          stepTLCMsgs := Function.update p.stepTLCMsgs p.step []
          stepFinish := Function.update p.stepFinish p.step (some tlc.block.value)
          learner := .counting
          daemon }) := by
  unfold advance at h
  split at h
  · rename_i tlc hdaemon
    refine ⟨tlc, hdaemon, ?_⟩
    split_ifs at h with hstep hreceives
    · exact Or.inl ⟨hstep, (Option.some.inj h).symm⟩
    · refine Or.inr ⟨_, ?_, (Option.some.inj h).symm⟩
      have hnext : Function.update p.stepTLCMsgs p.step [] (p.step + 1) = p.stepTLCMsgs (p.step + 1) :=
        Function.update_of_ne (by omega) _ _
      rw [hnext]
      split
      · rename_i msg msgs hmsgs
        split_ifs
        · exact Or.inr ⟨msg, by rw [hmsgs]; exact List.mem_cons_self, rfl⟩
        · exact Or.inl rfl
      · exact Or.inl rfl
  · cases h

theorem tlcCallback_ok {tlc : TLC} (h : PeerOk sent made learned p) (ht : tlc ∈ sent)
    (hstep : tlcCallback N p tlc = some p') : PeerOk sent made learned p' := by
  rcases tlcCallback_eq_some hstep with rfl | rfl
  · exact h
  · refine { h with channel := ?_ }
    intro t hmem
    rcases List.mem_append.mp hmem with hmem | hmem
    · exact h.channel t hmem
    · rw [List.mem_singleton.mp hmem]
      exact ht

theorem readTLC_ok (h : PeerOk sent made learned p) (hstep : readTLC cfg p = some p') :
    PeerOk sent made learned p' := by
  obtain ⟨tlc, rest, hidle, hch, hcases⟩ := readTLC_eq_some hstep
  have hchannel := h.channel
  rw [hch, List.forall_mem_cons] at hchannel
  rcases hcases with rfl | ⟨daemon, hdaemon, rfl⟩
  · exact { h with channel := hchannel.2 }
  · have hstored : daemon.stored? = none := by
      rcases hdaemon with rfl | ⟨rfl, -⟩ <;> rfl
    refine { h with channel := hchannel.2, collected := ?_, current := ?_, height := ?_, newest := ?_ }
    · intro k t ht
      by_cases hk : k = tlc.step
      · subst hk
        simp only [Function.update_self, List.mem_append, List.mem_singleton] at ht
        rcases ht with ht | rfl
        · exact h.collected _ t ht
        · exact ⟨hchannel.1, rfl⟩
      · simp only [Function.update_of_ne hk] at ht
        exact h.collected k t ht
    · intro t ht
      rcases hdaemon with rfl | ⟨rfl, htlc⟩
      · cases ht
      · rw [← Option.some.inj ht]
        exact ⟨hchannel.1, htlc⟩
    · have hheight := h.height
      rw [hidle] at hheight
      rw [hstored]
      exact hheight
    · intro t ht
      rw [hstored] at ht
      cases ht

theorem storeBlock_ok (h : PeerOk sent made learned p)
    (hsent : ∀ t ∈ sent, t.block ∈ made ∧ t.block.index = t.step) (hstep : storeBlock p = some p') :
    PeerOk sent made learned p' := by
  obtain ⟨tlc, catchingup, hdaemon, hcases⟩ := storeBlock_eq_some hstep
  obtain ⟨htlc, hcurrent⟩ := h.current tlc (by rw [hdaemon]; rfl)
  have hheight := h.height
  rw [hdaemon] at hheight
  rcases hcases with ⟨hne, -⟩ | rfl
  · exact absurd hcurrent.symm hne
  · obtain ⟨hmade, hindex⟩ := hsent tlc htlc
    refine { h with current := ?_, height := ?_, newest := ?_, counted := ?_, blocks := ?_, last := ?_, stored := ?_ }
    · intro t ht
      rw [← Option.some.inj ht]
      exact ⟨htlc, hcurrent⟩
    · exact congrArg (· + 1) hheight
    · intro t ht
      rw [← Option.some.inj ht]
      rfl
    · exact ⟨by rw [hindex, hcurrent]; exact hheight.symm, h.counted⟩
    · intro b hb
      rcases List.mem_cons.mp hb with rfl | hb
      · exact hmade
      · exact h.blocks b hb
    · simp
    · intro k hk
      dsimp only
      rw [Function.update_of_ne hk, List.find?_cons]
      by_cases heq : hexEncode tlc.block.hash = k
      · simp [heq]
      · simp only [heq, decide_false]
        rw [Function.update_of_ne (Ne.symm heq)]
        exact h.stored k hk

theorem writeName_ok (h : PeerOk sent made learned p) (hstep : writeName p = some p') :
    PeerOk sent made learned p' := by
  obtain ⟨tlc, catchingup, tlcSent, broadcast, hdaemon, rfl⟩ := writeName_eq_some hstep
  have hcurrent := h.current
  have hheight := h.height
  have hnewest := h.newest
  rw [hdaemon] at hcurrent hheight hnewest
  exact { h with current := hcurrent, height := hheight, newest := hnewest }

theorem advance_ok (h : PeerOk sent made learned p) (hstep : advance cfg p = some p') :
    PeerOk sent made learned p' := by
  obtain ⟨tlc, hdaemon, hcases⟩ := advance_eq_some hstep
  obtain ⟨htlc, hcurrent⟩ := h.current tlc (by rw [hdaemon]; rfl)
  rcases hcases with ⟨hne, -⟩ | ⟨daemon, hnext, rfl⟩
  · exact absurd hcurrent.symm hne
  · have hstored : daemon.stored? = none := by
      rcases hnext with rfl | ⟨msg, -, rfl⟩ <;> rfl
    have hheight := h.height
    rw [hdaemon] at hheight
    refine { h with collected := ?_, current := ?_, height := ?_, newest := ?_, learned := ?_, assembled := ?_ }
    · intro k t ht
      by_cases hk : k = p.step
      · subst hk
        simp at ht
      · simp only [Function.update_of_ne hk] at ht
        exact h.collected k t ht
    · intro t ht
      rcases hnext with rfl | ⟨msg, hmsg, rfl⟩
      · cases ht
      · rw [← Option.some.inj ht]
        exact h.collected (p.step + 1) msg hmsg
    · rw [hstored]
      exact hheight
    · intro t ht
      rw [hstored] at ht
      cases ht
    · intro v hv
      cases hv
    · intro b hb
      cases hb

end Steps

/-! ## Steps of the system -/

section System

variable {cfg : Config} {s s' : System N}

theorem checkName_eq_some (k : Nat) (h : checkName s k = some s') : ∃ calls, s' = { s with calls } := by
  unfold checkName at h
  split at h
  · split_ifs at h
    all_goals exact ⟨_, (Option.some.inj h).symm⟩
  · cases h

theorem propose_eq_some (k : Nat) (h : propose s k = some s') :
    (∃ calls, s' = { s with calls }) ∨
      ∃ i v calls, s.calls[k]? = some ⟨i, v, .proposing⟩ ∧ (s.peers i).locked = false ∧
        (s.peers i).onProposing = false ∧
        s' = { s.setPeer i { s.peers i with onProposing := true } with
          calls
          proposed := s.proposed ++ [((s.peers i).step, v)] } := by
  unfold propose at h
  split at h
  · rename_i i v hcall
    dsimp only at h
    split_ifs at h with hlocked hbusy
    · exact Or.inl ⟨_, (Option.some.inj h).symm⟩
    · rw [Bool.not_eq_true] at hlocked hbusy
      exact Or.inr ⟨i, v, _, hcall, hlocked, hbusy, (Option.some.inj h).symm⟩
  · cases h

theorem finish_eq_some (k : Nat) (h : finish s k = some s') :
    ∃ i calls stepFinish, s' = { s.setPeer i { s.peers i with stepFinish } with calls } := by
  unfold finish at h
  split at h
  · dsimp only at h
    split at h
    · exact ⟨_, _, _, (Option.some.inj h).symm⟩
    · cases h
  · cases h

theorem learn_base (h : Base cfg s) (i : Fin N) (v : PaxosValue) :
    Base cfg { s.setPeer i { s.peers i with learner := .learned v } with
      learned := s.learned ++ [((s.peers i).step, v)] } := by
  have hgrow : s.learned ⊆ s.learned ++ [((s.peers i).step, v)] := List.subset_append_left _ _
  refine ⟨peers_ok i h.peers (List.Subset.refl _) (List.Subset.refl _) hgrow ?_, h.sent, ?_⟩
  · refine { (h.peers i).mono (List.Subset.refl _) (List.Subset.refl _) hgrow with learned := ?_, assembled := ?_ }
    · intro v' hv'
      rw [← Learner.learned.inj hv']
      exact List.mem_append_right _ (List.mem_singleton.mpr rfl)
    · intro b hb
      cases hb
  · intro b hb
    exact ⟨hgrow (h.made b hb).1, (h.made b hb).2⟩

theorem assemble_base (h : Base cfg s) (i : Fin N) (v : PaxosValue) (hv : (s.peers i).learner = .learned v) :
    Base cfg { s.setPeer i { s.peers i with learner := .assembled (assemble cfg (s.peers i) v) } with
      made := s.made ++ [assemble cfg (s.peers i) v] } := by
  have hgrow : s.made ⊆ s.made ++ [assemble cfg (s.peers i) v] := List.subset_append_left _ _
  refine ⟨peers_ok i h.peers (List.Subset.refl _) hgrow (List.Subset.refl _) ?_, ?_, ?_⟩
  · refine { (h.peers i).mono (List.Subset.refl _) hgrow (List.Subset.refl _) with learned := ?_, assembled := ?_ }
    · intro v' hv'
      cases hv'
    · intro b hb
      rw [← Learner.assembled.inj hb]
      exact ⟨List.mem_append_right _ (List.mem_singleton.mpr rfl), rfl⟩
  · intro t ht
    exact ⟨hgrow (h.sent t ht).1, (h.sent t ht).2⟩
  · intro b hb
    rcases List.mem_append.mp hb with hb | hb
    · exact h.made b hb
    · rw [List.mem_singleton.mp hb]
      exact ⟨(h.peers i).learned v hv, rfl⟩

theorem broadcast_base (h : Base cfg s) (i : Fin N) (b : Block) (hb : (s.peers i).learner = .assembled b) :
    Base cfg { s.setPeer i { s.peers i with learner := .waiting } with
      sent := s.sent ++ [⟨(s.peers i).step, b⟩] } := by
  have hgrow : s.sent ⊆ s.sent ++ [⟨(s.peers i).step, b⟩] := List.subset_append_left _ _
  refine ⟨peers_ok i h.peers hgrow (List.Subset.refl _) (List.Subset.refl _) ?_, ?_, h.made⟩
  · refine { (h.peers i).mono hgrow (List.Subset.refl _) (List.Subset.refl _) with learned := ?_, assembled := ?_ }
    · intro v hv
      cases hv
    · intro c hc
      cases hc
  · intro t ht
    rcases List.mem_append.mp ht with ht | ht
    · exact h.sent t ht
    · rw [List.mem_singleton.mp ht]
      exact (h.peers i).assembled b hb

theorem announce_base (h : Base cfg s) (i : Fin N) (tlc : TLC) (broadcast : Bool)
    (hdaemon : (s.peers i).daemon = .announcing tlc broadcast) :
    Base cfg { s.setPeer i { s.peers i with daemon := .advancing tlc } with
      sent := s.sent ++ if broadcast then [tlc] else [] } := by
  have htlc := ((h.peers i).current tlc (by rw [hdaemon]; rfl)).1
  have hgrow : s.sent ⊆ s.sent ++ (if broadcast then [tlc] else []) := List.subset_append_left _ _
  have hcurrent := (h.peers i).current
  have hheight := (h.peers i).height
  have hnewest := (h.peers i).newest
  rw [hdaemon] at hcurrent hheight hnewest
  refine ⟨peers_ok i h.peers hgrow (List.Subset.refl _) (List.Subset.refl _) ?_, ?_, h.made⟩
  · refine { (h.peers i).mono hgrow (List.Subset.refl _) (List.Subset.refl _) with
      current := ?_, height := hheight, newest := hnewest }
    intro t ht
    exact ⟨hgrow (hcurrent t ht).1, (hcurrent t ht).2⟩
  · intro t ht
    rcases List.mem_append.mp ht with ht | ht
    · exact h.sent t ht
    · split_ifs at ht
      · rw [List.mem_singleton.mp ht]
        exact h.sent tlc htlc
      · cases ht

theorem step_base (h : Base cfg s) (e : Event N) (hstep : step cfg s e = some s') : Base cfg s' := by
  cases e with
  | tag i v =>
    rw [← Option.some.inj hstep]
    unfold tag
    split_ifs with hN
    · refine h.setPeer i ?_ _ _
      exact { h.peers i with }
    · exact ⟨h.peers, h.sent, h.made⟩
  | checkName k =>
    obtain ⟨calls, rfl⟩ := checkName_eq_some k hstep
    exact ⟨h.peers, h.sent, h.made⟩
  | propose k =>
    rcases propose_eq_some k hstep with ⟨calls, rfl⟩ | ⟨i, v, calls, -, -, -, rfl⟩
    · exact ⟨h.peers, h.sent, h.made⟩
    · refine h.setPeer i ?_ _ _
      exact { h.peers i with }
  | finish k =>
    obtain ⟨i, calls, stepFinish, rfl⟩ := finish_eq_some k hstep
    refine h.setPeer i ?_ _ _
    exact { h.peers i with }
  | proposeReturns i =>
    obtain ⟨p, hp, rfl⟩ := Option.map_eq_some_iff.mp hstep
    rw [proposeReturns_eq_some hp]
    refine h.setPeer i ?_ _ _
    exact { h.peers i with }
  | learn i v =>
    obtain ⟨p, hp, rfl⟩ := Option.map_eq_some_iff.mp hstep
    rw [learn_eq_some hp]
    exact learn_base h i v
  | assemble i =>
    simp only [step] at hstep
    split at hstep
    · rename_i v hv
      rw [← Option.some.inj hstep]
      exact assemble_base h i v hv
    · cases hstep
  | broadcast i =>
    simp only [step] at hstep
    split at hstep
    · rename_i b hb
      rw [← Option.some.inj hstep]
      exact broadcast_base h i b hb
    · cases hstep
  | receive i rumor =>
    simp only [step] at hstep
    split_ifs at hstep with hprocessed
    obtain ⟨tlc, htlc, hstep⟩ := Option.bind_eq_some_iff.mp hstep
    obtain ⟨p, hp, rfl⟩ := Option.map_eq_some_iff.mp hstep
    have hok : PeerOk s.sent s.made s.learned
        { s.peers i with processed := rumor :: (s.peers i).processed } := { h.peers i with }
    exact h.setPeer i (tlcCallback_ok hok (List.mem_of_getElem? htlc) hp) _ _
  | readTLC i =>
    obtain ⟨p, hp, rfl⟩ := Option.map_eq_some_iff.mp hstep
    exact h.setPeer i (readTLC_ok (h.peers i) hp) _ _
  | storeBlock i =>
    obtain ⟨p, hp, rfl⟩ := Option.map_eq_some_iff.mp hstep
    exact h.setPeer i (storeBlock_ok (h.peers i) h.sent hp) _ _
  | writeName i =>
    obtain ⟨p, hp, rfl⟩ := Option.map_eq_some_iff.mp hstep
    exact h.setPeer i (writeName_ok (h.peers i) hp) _ _
  | announce i =>
    simp only [step] at hstep
    split at hstep
    · rename_i tlc broadcast hdaemon
      rw [← Option.some.inj hstep]
      exact announce_base h i tlc broadcast hdaemon
    · cases hstep
  | advance i =>
    obtain ⟨p, hp, rfl⟩ := Option.map_eq_some_iff.mp hstep
    exact h.setPeer i (advance_ok (h.peers i) hp) _ _

/-- What a step adds to the three records. -/
theorem step_records (e : Event N) (h : step cfg s e = some s') :
    (s'.made = s.made ∨ ∃ i v, e = .assemble i ∧ (s.peers i).learner = .learned v ∧
      s'.made = s.made ++ [assemble cfg (s.peers i) v]) ∧
    (s'.learned = s.learned ∨ ∃ i v, e = .learn i v ∧ s'.learned = s.learned ++ [((s.peers i).step, v)]) ∧
    (s'.proposed = s.proposed ∨ ∃ k i v, e = .propose k ∧ s.calls[k]? = some ⟨i, v, .proposing⟩ ∧
      (s.peers i).locked = false ∧ (s.peers i).onProposing = false ∧
      s'.proposed = s.proposed ++ [((s.peers i).step, v)]) := by
  have hset : ∀ (i : Fin N) (r : Option Peer), r.map (s.setPeer i) = some s' →
      s'.made = s.made ∧ s'.learned = s.learned ∧ s'.proposed = s.proposed := by
    intro i r hr
    obtain ⟨p, -, rfl⟩ := Option.map_eq_some_iff.mp hr
    exact ⟨rfl, rfl, rfl⟩
  cases e with
  | tag i v =>
    rw [← Option.some.inj h]
    unfold tag
    split_ifs <;> exact ⟨Or.inl rfl, Or.inl rfl, Or.inl rfl⟩
  | checkName k =>
    obtain ⟨calls, rfl⟩ := checkName_eq_some k h
    exact ⟨Or.inl rfl, Or.inl rfl, Or.inl rfl⟩
  | propose k =>
    rcases propose_eq_some k h with ⟨calls, rfl⟩ | ⟨i, v, calls, hcall, hlocked, hbusy, rfl⟩
    · exact ⟨Or.inl rfl, Or.inl rfl, Or.inl rfl⟩
    · exact ⟨Or.inl rfl, Or.inl rfl, Or.inr ⟨k, i, v, rfl, hcall, hlocked, hbusy, rfl⟩⟩
  | finish k =>
    obtain ⟨i, calls, stepFinish, rfl⟩ := finish_eq_some k h
    exact ⟨Or.inl rfl, Or.inl rfl, Or.inl rfl⟩
  | learn i v =>
    obtain ⟨p, hp, rfl⟩ := Option.map_eq_some_iff.mp h
    rw [learn_eq_some hp]
    exact ⟨Or.inl rfl, Or.inr ⟨i, v, rfl, rfl⟩, Or.inl rfl⟩
  | assemble i =>
    simp only [step] at h
    split at h
    · rename_i v hv
      rw [← Option.some.inj h]
      exact ⟨Or.inr ⟨i, v, rfl, hv, rfl⟩, Or.inl rfl, Or.inl rfl⟩
    · cases h
  | broadcast i =>
    simp only [step] at h
    split at h
    · rw [← Option.some.inj h]
      exact ⟨Or.inl rfl, Or.inl rfl, Or.inl rfl⟩
    · cases h
  | receive i rumor =>
    simp only [step] at h
    split_ifs at h
    obtain ⟨tlc, -, h⟩ := Option.bind_eq_some_iff.mp h
    obtain ⟨hmade, hlearned, hproposed⟩ := hset i _ h
    exact ⟨Or.inl hmade, Or.inl hlearned, Or.inl hproposed⟩
  | announce i =>
    simp only [step] at h
    split at h
    · rw [← Option.some.inj h]
      exact ⟨Or.inl rfl, Or.inl rfl, Or.inl rfl⟩
    · cases h
  | proposeReturns i | readTLC i | storeBlock i | writeName i | advance i =>
    obtain ⟨hmade, hlearned, hproposed⟩ := hset i _ h
    exact ⟨Or.inl hmade, Or.inl hlearned, Or.inl hproposed⟩

/-! ## Agreement -/

/-- All learners of a step learn the same value. -/
def Agrees (s : System N) : Event N → Prop
  | .learn i v => ∀ x ∈ s.learned, x.1 = (s.peers i).step → x.2 = v
  | _ => True

instance (s : System N) : (e : Event N) → Decidable (Agrees s e)
  | .learn i v => inferInstanceAs (Decidable (∀ x ∈ s.learned, x.1 = (s.peers i).step → x.2 = v))
  | .tag _ _ | .checkName _ | .propose _ | .finish _ | .proposeReturns _ | .assemble _ | .broadcast _
  | .receive _ _ | .readTLC _ | .storeBlock _ | .writeName _ | .announce _ | .advance _ => isTrue trivial

def OneValue (s : System N) : Prop := ∀ k v v', (k, v) ∈ s.learned → (k, v') ∈ s.learned → v = v'

theorem step_oneValue (e : Event N) (h : OneValue s) (hagrees : Agrees s e) (hstep : step cfg s e = some s') :
    OneValue s' := by
  rcases (step_records e hstep).2.1 with hsame | ⟨i, v, rfl, hlearned⟩
  · unfold OneValue
    rw [hsame]
    exact h
  · intro k v₁ v₂ h₁ h₂
    rw [hlearned, List.mem_append, List.mem_singleton] at h₁ h₂
    rcases h₁ with h₁ | h₁ <;> rcases h₂ with h₂ | h₂
    · exact h k v₁ v₂ h₁ h₂
    · rw [Prod.mk.injEq] at h₂
      rw [h₂.2]
      exact hagrees _ h₁ h₂.1
    · rw [Prod.mk.injEq] at h₁
      rw [h₁.2]
      exact (hagrees _ h₂ h₁.1).symm
    · rw [Prod.mk.injEq] at h₁ h₂
      rw [h₁.2, h₂.2]

end System

end MarketPeer.Naming
