import MarketPeer.Ledger.History
import MarketPeer.Ledger.Wallet

/-!
# The wallet asks for its transaction

`VerifyTransaction` asks the neighbors and its own node how many blocks their chains have
above a transaction, while all of them go on to receive blocks. It takes the highest of
three answers. A packet that was sent can come at any later time, more than once, or never.
-/

namespace MarketPeer.Ledger

variable {F P : Type}

/-! ## Messages and calls -/

/-- A `VerifyTransactionMessage` on its way. -/
structure VerifyRequest (P : Type) where
  handle : String
  networkAddr : P
  dest : P
deriving DecidableEq

/-- A `VerifyTransactionReplyMessage` on its way. -/
structure VerifyReply (P : Type) where
  handle : String
  blocksAfter : Int64
  dest : P
deriving DecidableEq

/-- A call of `VerifyTransaction`, which waits for `left` more replies. `future` is its channel. -/
structure Verification (P : Type) where
  caller : P
  handle : String
  capacity : Nat
  future : List Int64
  left : Nat
  longestBlocksAfter : Int64

def verifyThreshold : Int64 := 0

/-- A reply that does not fit into the channel is dropped. -/
def Verification.offer (v : Verification P) (blocksAfter : Int64) : Verification P :=
  if v.future.length < v.capacity then { v with future := v.future ++ [blocksAfter] } else v

/-- `VerifyTransaction` has returned nil. -/
def Verification.verified (v : Verification P) : Bool := v.left = 0 ∧ verifyThreshold ≤ v.longestBlocksAfter

/-- The nodes, each with a miner and a wallet. `verifyFutures` has the place of the call in the list. -/
structure Network (F P : Type) where
  chain : P → ChainHistory F
  verifyFutures : P → String → Option Nat
  verifications : List (Verification P)
  requests : List (VerifyRequest P)
  replies : List (VerifyReply P)

def Network.start (env : Env F) (genesis : P → Block F) : Network F P where
  chain p := .genesis env (genesis p)
  verifyFutures _ _ := none
  verifications := []
  requests := []
  replies := []

variable [DecidableEq P]

namespace Network

/-- The first part of `VerifyTransaction`. `sent` are the nodes that the message could be sent to. -/
def verifyTransaction (n : Network F P) (caller : P) (handle : String) (neighbors : Nat) (sent : List P) : Network F P :=
  { n with
    verifyFutures := Function.update n.verifyFutures caller
      (Function.update (n.verifyFutures caller) handle (some n.verifications.length))
    verifications := n.verifications ++ [⟨caller, handle, neighbors + 2, [], waitfor neighbors, -1⟩]
    requests := n.requests ++ sent.map fun dest => ⟨handle, caller, dest⟩ }

def verifyTxnReplyMessageCallback (n : Network F P) (r : VerifyReply P) : Network F P :=
  match n.verifyFutures r.dest r.handle with
  | none => n
  | some id =>
    { n with verifications := n.verifications.modify id (·.offer r.blocksAfter) }

end Network

/-- One reply comes out of the channel. -/
def Verification.receive (v : Verification P) : Option (Verification P) :=
  match v.left, v.future with
  | left + 1, blocksAfter :: future =>
    let longest := if v.longestBlocksAfter < blocksAfter then blocksAfter else v.longestBlocksAfter
    some { v with future, left, longestBlocksAfter := longest }
  | _, _ => none

/-! ## Steps -/

inductive NetworkEvent (F P : Type) where
  | block (p : P) (source : String) (msg : BlockMessage F)
  | verify (caller : P) (handle : String) (neighbors : Nat) (sent : List P)
  | request (r : VerifyRequest P) (replied : Bool)
  | reply (r : VerifyReply P)
  | receive (id : Nat)

variable [Float64 F]

/-- `none`: the event cannot happen now, or a miner panics. The loop of `HasTxn` gets a round for each block. -/
def networkStep (env : Env F) (miner : P → Miner) (n : Network F P) : NetworkEvent F P → Option (Network F P)
  | .block p source msg =>
    (receiveBlock env (miner p) (n.chain p) (source, msg)).map fun s =>
      { n with chain := Function.update n.chain p s }
  | .verify caller handle neighbors sent => some (n.verifyTransaction caller handle neighbors sent)
  | .request r replied =>
    if r ∈ n.requests then
      match (n.chain r.dest).bc.hasTxn env (n.chain r.dest).blocks.length r.handle with
      | some (.ok (_, nBlocksAfter)) =>
        some (if replied then { n with replies := n.replies ++ [⟨r.handle, nBlocksAfter, r.networkAddr⟩] } else n)
      -- recovered by `ProcessPacket`
      | some _ => some n
      | none => none
    else none
  | .reply r => if r ∈ n.replies then some (n.verifyTxnReplyMessageCallback r) else none
  | .receive id =>
    n.verifications[id]?.bind fun v => v.receive.map fun v => { n with verifications := n.verifications.set id v }

/-! ## What a count says -/

section Counts

variable {env : Env F} {miner : P → Miner} {n n' : Network F P}

/-- Some node has the transaction, with as many blocks above it at least; `-1` says nothing. -/
def Confirmed (env : Env F) (n : Network F P) (handle : String) (blocksAfter : Int64) : Prop :=
  blocksAfter = -1 ∨ ∃ q j i b, blocksAfter = Int64.ofNat j ∧ j ≤ i ∧ (n.chain q).blocks[i]? = some b ∧
    b.hasTxn env handle

/-- Every chain has grown, if it has changed. -/
def Network.Below (n n' : Network F P) : Prop := ∀ p, (n.chain p).blocks <:+ (n'.chain p).blocks

omit [DecidableEq P] in
theorem Confirmed.mono (hbelow : n.Below n') {handle : String} {x : Int64} (h : Confirmed env n handle x) :
    Confirmed env n' handle x := by
  rcases h with h | ⟨q, j, i, b, hx, hi, hb, hhas⟩
  · exact .inl h
  · obtain ⟨new, hnew⟩ := hbelow q
    refine .inr ⟨q, j, new.length + i, b, hx, by omega, ?_, hhas⟩
    rw [← hnew, List.getElem?_append_right (by omega), Nat.add_sub_cancel_left]
    exact hb

omit [DecidableEq P] in
/-- The answer of `HasTxn`. -/
theorem confirmed_hasTxn {q : P} (hanswers : Answers env (n.chain q).bc (n.chain q).blocks (n.chain q).blocks.length)
    {handle : String} {found : Bool} {x : Int64}
    (h : (n.chain q).bc.hasTxn env (n.chain q).blocks.length handle = some (.ok (found, x))) :
    Confirmed env n handle x := by
  rw [hanswers.hasTxn, Option.some.injEq, Outcome.ok.injEq] at h
  cases hdepth : txnDepth env (n.chain q).blocks handle with
  | none =>
    rw [hdepth, Option.elim_none, Prod.mk.injEq] at h
    exact .inl h.2.symm
  | some j =>
    rw [hdepth, Option.elim_some, Prod.mk.injEq] at h
    obtain ⟨hj, hhas, -⟩ := List.findIdx?_eq_some_iff_getElem.mp hdepth
    exact .inr ⟨q, j, j, _, h.2.symm, Nat.le_refl j, List.getElem?_eq_getElem hj, hhas⟩

/-! ## The invariant -/

structure Verification.Sound (env : Env F) (n : Network F P) (v : Verification P) : Prop where
  future : ∀ x ∈ v.future, Confirmed env n v.handle x
  longest : Confirmed env n v.handle v.longestBlocksAfter

/-- Whatever a node has heard of a transaction is so. -/
structure Network.Sound (env : Env F) (n : Network F P) : Prop where
  grown : ∀ p, Grown env (n.chain p)
  futures : ∀ p handle id, n.verifyFutures p handle = some id →
    ∃ v, n.verifications[id]? = some v ∧ v.handle = handle
  verifications : ∀ v ∈ n.verifications, v.Sound env n
  replies : ∀ r ∈ n.replies, Confirmed env n r.handle r.blocksAfter

omit [DecidableEq P] in
theorem Verification.Sound.mono {v : Verification P} (h : v.Sound env n) (hbelow : n.Below n') : v.Sound env n' where
  future := fun x hx => (h.future x hx).mono hbelow
  longest := h.longest.mono hbelow

omit [DecidableEq P] [Float64 F] in
theorem Network.Below.refl (n : Network F P) : n.Below n := fun _ => List.suffix_refl _

omit [DecidableEq P] in
theorem receive_sound {v v' : Verification P} (h : v.Sound env n) (hreceive : v.receive = some v') :
    v'.handle = v.handle ∧ v'.Sound env n := by
  unfold Verification.receive at hreceive
  split at hreceive
  · next left blocksAfter future hleft hfuture =>
    have hfirst := h.future blocksAfter (by rw [hfuture]; exact List.mem_cons_self)
    rw [Option.some.injEq] at hreceive
    subst hreceive
    refine ⟨rfl, fun x hx => h.future x (by rw [hfuture]; exact List.mem_cons_of_mem _ hx), ?_⟩
    dsimp only
    split
    · exact hfirst
    · exact h.longest
  · cases hreceive

omit [DecidableEq P] in
theorem offer_sound {v : Verification P} (h : v.Sound env n) {x : Int64} (hx : Confirmed env n v.handle x) :
    (v.offer x).handle = v.handle ∧ (v.offer x).Sound env n := by
  unfold Verification.offer
  split_ifs
  · refine ⟨rfl, fun y hy => ?_, h.longest⟩
    rcases List.mem_append.mp hy with hy | hy
    · exact h.future y hy
    · rw [List.mem_singleton.mp hy]
      exact hx
  · exact ⟨rfl, h⟩

theorem networkStep_below {e : NetworkEvent F P} (hstep : networkStep env miner n e = some n') : n.Below n' := by
  cases e with
  | block p source msg =>
    obtain ⟨s, hs, rfl⟩ := Option.map_eq_some_iff.mp hstep
    intro q
    dsimp only
    by_cases hq : q = p
    · subst hq
      rw [Function.update_self]
      rcases receiveBlock_blocks env (miner q) _ s _ hs with hsame | ⟨b, -, hcons⟩
      · rw [hsame]
      · rw [hcons]
        exact List.suffix_cons b _
    · rw [Function.update_of_ne hq]
  | verify caller handle neighbors sent =>
    cases hstep
    exact .refl n
  | request r replied =>
    simp only [networkStep, Option.ite_none_right_eq_some] at hstep
    obtain ⟨-, hstep⟩ := hstep
    split at hstep
    · cases replied <;> cases hstep <;> exact .refl n
    · cases hstep
      exact .refl n
    · cases hstep
  | reply r =>
    simp only [networkStep, Option.ite_none_right_eq_some, Option.some.injEq] at hstep
    obtain ⟨-, rfl⟩ := hstep
    unfold Network.verifyTxnReplyMessageCallback
    split <;> exact .refl n
  | receive id =>
    obtain ⟨v, -, hstep⟩ := Option.bind_eq_some_iff.mp hstep
    obtain ⟨v', -, rfl⟩ := Option.map_eq_some_iff.mp hstep
    exact .refl n

/-- SHA-256 does not collide on what a chain hashes, and no block has the hash of no block. -/
structure Network.Clean (env : Env F) (n : Network F P) : Prop where
  free : ∀ p, CollisionFree env ((n.chain p).blocks.flatMap (Block.texts env))
  real : ∀ p, ∀ b ∈ (n.chain p).blocks, b.hash env ≠ DUMMY_PARENT_HASH

omit [DecidableEq P] in
theorem Network.Clean.of_below (h : n'.Clean env) (hbelow : n.Below n') : n.Clean env where
  free p := (h.free p).subset (texts_subset (hbelow p).subset)
  real p b hb := h.real p b ((hbelow p).subset hb)

omit [DecidableEq P] in
theorem sound_start {genesis : P → Block F} (hg : ∀ p, (genesis p).IsGenesis env) :
    (Network.start env genesis).Sound env where
  grown p := genesis_grown (hg p)
  futures _ _ _ h := by cases h
  verifications _ h := by cases h
  replies _ h := by cases h

omit [DecidableEq P] in
/-- One call goes on. -/
theorem Network.Sound.set (h : n.Sound env) {id : Nat} {v v' : Verification P} (hv : n.verifications[id]? = some v)
    (hnew : v'.handle = v.handle ∧ v'.Sound env n) :
    Network.Sound env { n with verifications := n.verifications.set id v' } where
  grown := h.grown
  futures p handle i hi := by
    obtain ⟨w, hw, hhandle⟩ := h.futures p handle i hi
    by_cases hid : id = i
    · subst hid
      rw [hv, Option.some.injEq] at hw
      subst hw
      exact ⟨v', List.getElem?_set_self (List.getElem?_eq_some_iff.mp hv).1, hnew.1.trans hhandle⟩
    · exact ⟨w, by rw [List.getElem?_set_ne hid]; exact hw, hhandle⟩
  verifications w hw := by
    rcases List.mem_or_eq_of_mem_set hw with hw | rfl
    · exact (h.verifications w hw).mono (.refl n)
    · exact hnew.2.mono (.refl n)
  replies := h.replies

/-- No event makes a node believe what is not so. -/
theorem networkStep_sound (hlength : ∀ bs, (env.sha256 bs).length = 32) {e : NetworkEvent F P} (h : n.Sound env)
    (hclean : n.Clean env) (hstep : networkStep env miner n e = some n') : n'.Sound env := by
  have hbelow := networkStep_below hstep
  cases e with
  | block p source msg =>
    obtain ⟨s, hs, rfl⟩ := Option.map_eq_some_iff.mp hstep
    refine ⟨fun q => ?_, h.futures, fun v hv => (h.verifications v hv).mono hbelow, fun r hr => (h.replies r hr).mono hbelow⟩
    dsimp only
    by_cases hq : q = p
    · subst hq
      rw [Function.update_self]
      exact receiveBlock_grown (h.grown q) hs
    · rw [Function.update_of_ne hq]
      exact h.grown q
  | verify caller handle neighbors sent =>
    cases hstep
    refine ⟨h.grown, ?_, ?_, h.replies⟩
    · intro p handle' id hid
      unfold Network.verifyTransaction at hid ⊢
      dsimp only at hid ⊢
      by_cases hnew : p = caller ∧ handle' = handle
      · obtain ⟨rfl, rfl⟩ := hnew
        rw [Function.update_self, Function.update_self, Option.some.injEq] at hid
        subst hid
        exact ⟨_, List.getElem?_concat_length, rfl⟩
      · have hold : n.verifyFutures p handle' = some id := by
          rw [← hid]
          simp only [Function.update_apply]
          split_ifs <;> simp_all
        obtain ⟨v, hv, hhandle⟩ := h.futures p handle' id hold
        exact ⟨v, List.getElem?_append_left (List.getElem?_eq_some_iff.mp hv).1 ▸ hv, hhandle⟩
    · intro v hv
      rcases List.mem_append.mp hv with hv | hv
      · exact (h.verifications v hv).mono hbelow
      · rw [List.mem_singleton.mp hv]
        exact ⟨fun x hx => (List.not_mem_nil hx).elim, .inl rfl⟩
  | request r replied =>
    simp only [networkStep, Option.ite_none_right_eq_some] at hstep
    obtain ⟨-, hstep⟩ := hstep
    split at hstep
    · next found nBlocksAfter hhas =>
      have hcount := confirmed_hasTxn ((h.grown r.dest).answers hlength (hclean.real r.dest) (hclean.free r.dest)
        (Nat.le_refl _)) hhas
      cases replied with
      | false =>
        cases hstep
        exact h
      | true =>
        cases hstep
        refine ⟨h.grown, h.futures, fun v hv => (h.verifications v hv).mono hbelow, ?_⟩
        intro r' hr'
        rcases List.mem_append.mp hr' with hr' | hr'
        · exact (h.replies r' hr').mono hbelow
        · rw [List.mem_singleton.mp hr']
          exact hcount.mono hbelow
    · cases hstep
      exact h
    · cases hstep
  | reply r =>
    simp only [networkStep, Option.ite_none_right_eq_some, Option.some.injEq] at hstep
    obtain ⟨hr, rfl⟩ := hstep
    unfold Network.verifyTxnReplyMessageCallback
    split
    · exact h
    · next id hid =>
      obtain ⟨v, hv, hhandle⟩ := h.futures r.dest r.handle id hid
      rw [List.modify_eq_set_getElem?, hv]
      exact h.set hv (offer_sound (h.verifications v (List.mem_of_getElem? hv)) (hhandle ▸ h.replies r hr))
  | receive id =>
    obtain ⟨v, hv, hstep⟩ := Option.bind_eq_some_iff.mp hstep
    obtain ⟨v', hreceive, rfl⟩ := Option.map_eq_some_iff.mp hstep
    exact h.set hv (receive_sound (h.verifications v (List.mem_of_getElem? hv)) hreceive)

theorem run_sound (hlength : ∀ bs, (env.sha256 bs).length = 32) {genesis : P → Block F}
    (hg : ∀ p, (genesis p).IsGenesis env) {events : List (NetworkEvent F P)}
    (hrun : run (networkStep env miner) (.start env genesis) events = some n) (hclean : n.Clean env) : n.Sound env := by
  refine run_snoc_induction (motive := fun _ n => n.Clean env → n.Sound env) ?_ ?_ events hrun hclean
  · intro _
    exact sound_start hg
  · intro es e n n' _ ih hstep hclean'
    have hclean := hclean'.of_below (networkStep_below hstep)
    exact networkStep_sound hlength (ih hclean) hclean hstep

end Counts

/-- What a wallet has verified is on a chain. In every run of nodes whose miners receive any blocks, if
`VerifyTransaction` has returned nil, some node has the transaction now, under at least as many blocks as the call
has heard of. -/
theorem verified_is_on_chain (env : Env F) (hlength : ∀ bs, (env.sha256 bs).length = 32) (miner : P → Miner)
    (genesis : P → Block F) (hg : ∀ p, (genesis p).IsGenesis env) (events : List (NetworkEvent F P))
    (n : Network F P) (hrun : run (networkStep env miner) (.start env genesis) events = some n)
    (hclean : n.Clean env) :
    ∀ v ∈ n.verifications, v.verified → ∃ q j i b, v.longestBlocksAfter = Int64.ofNat j ∧ j ≤ i ∧
      (n.chain q).blocks[i]? = some b ∧ b.hasTxn env v.handle := by
  intro v hv hverified
  have hlongest := ((run_sound hlength hg hrun hclean).verifications v hv).longest
  refine hlongest.resolve_left ?_
  intro hnone
  unfold Verification.verified at hverified
  rw [hnone] at hverified
  have := (of_decide_eq_true hverified).2
  exact absurd this (by decide)

/-- A wallet asks while only its neighbor has the block with the payment. -/
def askingRun (g : Block Int) : List (NetworkEvent Int Bool) :=
  let handle := txnHash digestEnv (some payment)
  [.block false (paidOn (g.hash digestEnv)).1 (paidOn (g.hash digestEnv)).2, .verify true handle 1 [false, true],
    .request ⟨handle, true, true⟩ true, .request ⟨handle, true, false⟩ true, .reply ⟨handle, -1, true⟩,
    .reply ⟨handle, 0, true⟩, .receive 0, .receive 0]

theorem asking_finds : ∃ g n v, rootBuilder.build digestEnv = .ok g ∧
    run (networkStep digestEnv fun _ => sampleMiner) (.start digestEnv fun _ => g) (askingRun g) = some n ∧
    n.verifications = [v] ∧ v.verified ∧ ∃ q j i b, v.longestBlocksAfter = Int64.ofNat j ∧ j ≤ i ∧
      (n.chain q).blocks[i]? = some b ∧ b.hasTxn digestEnv v.handle := by
  have hcheck : (rootBuilder.build digestEnv).any (fun g =>
      (run (networkStep digestEnv fun _ => sampleMiner) (.start digestEnv fun _ => g) (askingRun g)).any fun n =>
      decide (g.header.parentHash = DUMMY_PARENT_HASH ∧ g.header.number = 0 ∧
        (∀ p, CollisionFree digestEnv ((n.chain p).blocks.flatMap (Block.texts digestEnv))) ∧
        (∀ p, ∀ b ∈ (n.chain p).blocks, b.hash digestEnv ≠ DUMMY_PARENT_HASH) ∧ n.verifications.length = 1 ∧
        ∀ v ∈ n.verifications, v.verified = true)) = true := by
    decide +kernel
  obtain ⟨g, hbuild, hcheck⟩ := (Outcome.any_eq_true ..).mp hcheck
  obtain ⟨n, hrun, hcheck⟩ := (Option.any_eq_true ..).mp hcheck
  obtain ⟨hparent, hnumber, hfree, hreal, hlength, hverified⟩ := of_decide_eq_true hcheck
  obtain ⟨v, hv⟩ := List.length_eq_one_iff.mp hlength
  have hmem : v ∈ n.verifications := by rw [hv]; exact List.mem_singleton_self v
  exact ⟨g, n, v, hbuild, hrun, hv, hverified v hmem, verified_is_on_chain digestEnv length_sampleSha _ _
    (fun _ => ⟨build_sealed _ _ _ hbuild, hparent, hnumber⟩) _ n hrun ⟨hfree, hreal⟩ v hmem (hverified v hmem)⟩

end MarketPeer.Ledger
