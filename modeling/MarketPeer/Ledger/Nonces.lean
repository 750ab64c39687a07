import MarketPeer.Ledger.Effects
import MarketPeer.Ledger.Miner
import MarketPeer.Lib.Runs
import Mathlib.Algebra.Group.Nat.Defs
import Mathlib.Data.List.Nodup

/-!
# Nonces

A transaction is meant to be accepted once, because its acceptance raises the
nonce it was checked against. That holds as long as the sender's two address
fields agree, the contract does something, and no creation resets a nonce.
-/

namespace MarketPeer.Ledger

open MarketPeer.Contracts

variable {F : Type} [Float64 F]

abbrev World.nonce? (w : World F) (key : String) : Option UInt64 := w.view State.nonce key

/-! ## What happens to nonces -/

theorem runAction_nonce? (p a : String) (x : Action F) (w : World F) (k : String) :
    (runAction p a x w).2.nonce? k = w.nonce? k := by
  have h := runAction_effect p a x w
  generalize runAction p a x w = r at h
  cases h with
  | failed => rfl
  | skipped => rfl
  | paid => rw [World.nonce?, view_update_of_eq, view_update_of_eq] <;> intro s <;> rfl
  | refunded => rw [World.nonce?, view_update_of_eq, view_update_of_eq] <;> intro s <;> rfl
  | halfSent => exact view_update_of_eq _ _ _ _ _ fun s => rfl
  | sent => rw [World.nonce?, view_update_of_eq, view_update_of_eq] <;> intro s <;> rfl

theorem runActions_nonce? (p a : String) (xs : List (Action F)) (w : World F) (k : String) :
    (runActions p a xs w).2.nonce? k = w.nonce? k := by
  refine runActions_induct (fun w w' => w'.nonce? k = w.nonce? k) (fun _ => rfl) ?_ p a ?_ xs w
  · intro w1 w2 w3 h12 h23
    rw [h23, h12]
  · intro x w
    exact runAction_nonce? p a x w k

/-- What `executeTxn` does to nonces: nothing (an error, or a contract whose assumptions fail);
one more for the sender and zero at a created contract; or one more for the sender. -/
theorem executeTxn_nonce? (env : Env F) (t : SignedTransaction F) (w : World F) :
    (((executeTxn env t w).1.isOk = false ∨ t.isTrigger ∧ AssumptionsFail env t w) ∧
      ∀ k, (executeTxn env t w).2.nonce? k = w.nonce? k) ∨
    ((executeTxn env t w).1.isOk = true ∧ (w.account? t.sender).isSome ∧
      ∀ k, (executeTxn env t w).2.nonce? k =
        if t.txn.type = CREATE_CONTRACT ∧ t.receiver = k then some 0
        else if t.sender = k then (w.nonce? k).map (· + 1) else w.nonce? k) := by
  have h := executeTxn_effect env t w
  generalize executeTxn env t w = r at h
  cases h with
  | refused r hr => exact Or.inl ⟨Or.inl hr, fun _ => rfl⟩
  | idle ht hplan => exact Or.inl ⟨Or.inr ⟨ht, assumptionsFail_of_plan env t w hplan⟩, fun _ => rfl⟩
  | stopped plan r r' w' ht hplan hrun hr hr' =>
    refine Or.inl ⟨Or.inl (by subst hr'; cases r <;> simp_all [wrapErr]), fun k => ?_⟩
    have := runActions_nonce? plan.proposer plan.acceptor plan.actions w k
    rwa [hrun] at this
  | ran plan w' ht hplan hrun =>
    obtain ⟨hacc, -, hsome⟩ := plan_parties env t w plan hplan
    refine Or.inr ⟨rfl, hacc ▸ hsome, fun k => ?_⟩
    have hw' := runActions_nonce? plan.proposer plan.acceptor plan.actions w k
    rw [hrun] at hw'
    rw [if_neg (fun h => ht.2 h.1), World.nonce?, view_update, hacc, ← hw']
    split
    · simp only [World.nonce?, World.view, Option.map_map]
      rfl
    · rfl
  | created s ht hs =>
    refine Or.inr ⟨rfl, by simp [hs], fun k => ?_⟩
    simp only [World.nonce?, World.view, World.account?_put_account, ht, true_and]
    split
    · rfl
    · rw [World.account?_update]
      split
      · rw [Option.map_map, Option.map_map]; rfl
      · rfl
  | stored s ht hc hs =>
    refine Or.inr ⟨rfl, by simp [hs], fun k => ?_⟩
    rw [if_neg (fun h => by rw [ht] at h; exact absurd h.1 (by decide)), World.nonce?, view_update]
    split
    · simp only [World.view, Option.map_map]
      rfl
    · rfl
  | moved s s' ht hs hs' =>
    refine Or.inr ⟨rfl, by simp [hs], fun k => ?_⟩
    rw [if_neg (fun h => ht.2.1 h.1), World.nonce?,
      view_update_of_eq _ State.nonce _ _ (State.credit t.amount) (fun s => rfl), view_update]
    split
    · simp only [World.view, Option.map_map]
      rfl
    · rfl

/-! ## Accepting a transaction -/

/-- The miner takes `t` on `w`: it verifies, and executing it returns nil. -/
def Accepts (env : Env F) (m : Miner) (t : SignedTransaction F) (w : World F) : Prop :=
  (offer env m t w).1.isOk = true

/-- An offer that does not verify changes nothing; one that does is executed. -/
theorem offer_cases (env : Env F) (m : Miner) (t : SignedTransaction F) (w : World F) :
    ((offer env m t w).1.isOk = false ∧ (offer env m t w).2 = w) ∨
      (doVerifyTxn env m t w = .ok () ∧ offer env m t w = executeTxn env t w) := by
  unfold offer verifyTxn
  cases h : doVerifyTxn env m t w with
  | ok u => exact Or.inr ⟨rfl, rfl⟩
  | err e => exact Or.inl ⟨rfl, rfl⟩
  | panic why => exact Or.inl ⟨rfl, rfl⟩

theorem accepts_iff (env : Env F) (m : Miner) (t : SignedTransaction F) (w : World F) :
    Accepts env m t w ↔ doVerifyTxn env m t w = .ok () ∧ (executeTxn env t w).1.isOk = true := by
  unfold Accepts offer verifyTxn
  cases h : doVerifyTxn env m t w <;> simp [wrapErr, andThen]

structure LedgerState (F : Type) where
  world : World F
  accepted : List (SignedTransaction F)

/-- One offered transaction; a panic ends the process. -/
def ledgerStep (env : Env F) (m : Miner) (s : LedgerState F) (t : SignedTransaction F) :
    Option (LedgerState F) :=
  match offer env m t s.world with
  | (.ok _, w') => some ⟨w', s.accepted ++ [t]⟩
  | (.err _, w') => some ⟨w', s.accepted⟩
  | (.panic _, _) => none

theorem ledgerStep_eq_some (env : Env F) (m : Miner) (s s' : LedgerState F) (t : SignedTransaction F)
    (h : ledgerStep env m s t = some s') :
    s'.world = (offer env m t s.world).2 ∧
      ((Accepts env m t s.world ∧ s'.accepted = s.accepted ++ [t]) ∨
        (¬ Accepts env m t s.world ∧ s'.accepted = s.accepted)) := by
  unfold ledgerStep at h
  unfold Accepts
  split at h
  · rename_i hoffer
    simp only [Option.some.injEq] at h
    subst h
    exact ⟨by rw [hoffer], Or.inl ⟨by rw [hoffer]; rfl, rfl⟩⟩
  · rename_i hoffer
    simp only [Option.some.injEq] at h
    subst h
    exact ⟨by rw [hoffer], Or.inr ⟨by rw [hoffer]; simp, rfl⟩⟩
  · simp at h

/-! ## Replay protection -/

/-- The nonce that `t` is checked against is the one that its acceptance raises: both forms of
the sender agree, the contract it calls has its assumptions met, a contract is created neither
at the sender nor over a used account, and the counter does not overflow. -/
structure NonceSafe (env : Env F) (t : SignedTransaction F) (w : World F) : Prop where
  tied : t.txn.fromAddr.hex = t.sender
  acts : ¬ (t.isTrigger ∧ AssumptionsFail env t w)
  keeps : t.txn.type = CREATE_CONTRACT →
    t.receiver ≠ t.sender ∧ ∀ n, w.nonce? t.receiver = some n → n = 0
  room : ∀ n, w.nonce? t.sender = some n → n.toNat + 1 < 2 ^ 64

def RaisesNonce (env : Env F) (t : SignedTransaction F) (w : World F) : Prop :=
  (∃ n n', w.nonce? t.sender = some n ∧ (executeTxn env t w).2.nonce? t.sender = some n' ∧
    n'.toNat = n.toNat + 1) ∧
  ∀ k n, w.nonce? k = some n → ∃ n', (executeTxn env t w).2.nonce? k = some n' ∧ n.toNat ≤ n'.toNat

theorem toNat_add_one (n : UInt64) (h : n.toNat + 1 < 2 ^ 64) : (n + 1).toNat = n.toNat + 1 := by
  rw [UInt64.toNat_add]
  exact Nat.mod_eq_of_lt h

theorem raisesNonce_of_safe (env : Env F) (t : SignedTransaction F) (w : World F)
    (hok : (executeTxn env t w).1.isOk = true) (hsafe : NonceSafe env t w) : RaisesNonce env t w := by
  rcases executeTxn_nonce? env t w with ⟨h | h, -⟩ | ⟨-, hsome, hnonce⟩
  · rw [hok] at h; cases h
  · exact absurd h hsafe.acts
  · obtain ⟨s, hs⟩ := Option.isSome_iff_exists.mp hsome
    have hn : w.nonce? t.sender = some s.nonce := by simp [World.nonce?, World.view, hs]
    have hroom := hsafe.room s.nonce hn
    have hsender : (executeTxn env t w).2.nonce? t.sender = some (s.nonce + 1) := by
      rw [hnonce, if_neg (fun h => (hsafe.keeps h.1).1 h.2), if_pos rfl, hn]
      rfl
    refine ⟨⟨s.nonce, s.nonce + 1, hn, hsender, toNat_add_one _ hroom⟩, ?_⟩
    intro k n hk
    by_cases hcreate : t.txn.type = CREATE_CONTRACT ∧ t.receiver = k
    · -- A created contract: the account it replaces was never used.
      obtain ⟨hc, rfl⟩ := hcreate
      have hzero := (hsafe.keeps hc).2 n hk
      exact ⟨0, by rw [hnonce, if_pos ⟨hc, rfl⟩], by simp [hzero]⟩
    · by_cases hk' : t.sender = k
      · subst hk'
        rw [hn, Option.some.injEq] at hk
        exact ⟨_, hsender, by rw [← hk, toNat_add_one _ hroom]; omega⟩
      · exact ⟨n, by rw [hnonce, if_neg hcreate, if_neg hk', hk], Nat.le_refl _⟩

/-- What a run keeps: every accepted transaction is used up, since the nonce of its sender is
past the one it carries. -/
def Spent (s : LedgerState F) : Prop :=
  s.accepted.Nodup ∧ ∀ t ∈ s.accepted, t.txn.fromAddr.hex = t.sender ∧
    ∃ n, s.world.nonce? t.sender = some n ∧ t.txn.nonce.toUInt64.toNat < n.toNat

omit [Float64 F] in
theorem nonce_of_verified (env : Env F) (m : Miner) (hm : m.attacker = false)
    (t : SignedTransaction F) (w : World F) (h : doVerifyTxn env m t w = .ok ())
    (htied : t.txn.fromAddr.hex = t.sender) : w.nonce? t.sender = some t.txn.nonce.toUInt64 := by
  obtain ⟨publicKey, s, hv⟩ := (doVerifyTxn_eq_ok env m hm t w).mp h
  have hs := hv.account
  rw [htied] at hs
  simp [World.nonce?, World.view, hs, hv.nonce]

theorem offer_nonce_of_not_accepted (env : Env F) (m : Miner) (t : SignedTransaction F) (w : World F)
    (h : ¬ Accepts env m t w) (k : String) : (offer env m t w).2.nonce? k = w.nonce? k := by
  rcases offer_cases env m t w with ⟨-, hw⟩ | ⟨hv, heq⟩
  · rw [hw]
  · have hfail : (executeTxn env t w).1.isOk = false := by
      rw [accepts_iff, not_and, Bool.not_eq_true] at h
      exact h hv
    rw [heq]
    rcases executeTxn_nonce? env t w with ⟨-, hsame⟩ | ⟨hok, -⟩
    · exact hsame k
    · rw [hfail] at hok; cases hok

theorem ledgerStep_spent (env : Env F) (m : Miner) (hm : m.attacker = false) (s s' : LedgerState F)
    (t : SignedTransaction F) (hinv : Spent s)
    (hsafe : Accepts env m t s.world → NonceSafe env t s.world)
    (hstep : ledgerStep env m s t = some s') : Spent s' := by
  obtain ⟨hworld, ⟨hacc, hlist⟩ | ⟨hacc, hlist⟩⟩ := ledgerStep_eq_some env m s s' t hstep
  · obtain ⟨hv, hok⟩ := (accepts_iff env m t s.world).mp hacc
    have htied := (hsafe hacc).tied
    have hn := nonce_of_verified env m hm t s.world hv htied
    obtain ⟨⟨n, n', hn1, hn', hone⟩, hmono⟩ := raisesNonce_of_safe env t s.world hok (hsafe hacc)
    have hw : s'.world = (executeTxn env t s.world).2 := by
      rcases offer_cases env m t s.world with ⟨hno, -⟩ | ⟨-, heq⟩
      · rw [Accepts, hno] at hacc; cases hacc
      · rw [hworld, heq]
    refine ⟨?_, ?_⟩
    · -- Accepted before means spent before, but the nonce still matches.
      rw [hlist, List.nodup_append]
      refine ⟨hinv.1, List.nodup_singleton t, ?_⟩
      intro x hx y hy hxy
      rw [List.mem_singleton] at hy
      subst hxy hy
      obtain ⟨-, n0, hn0, hlt⟩ := hinv.2 x hx
      rw [hn, Option.some.injEq] at hn0
      rw [hn0] at hlt
      omega
    · intro x hx
      rw [hlist, List.mem_append, List.mem_singleton] at hx
      rcases hx with hx | rfl
      · obtain ⟨hxtied, n0, hn0, hlt⟩ := hinv.2 x hx
        obtain ⟨n1, hn1, hle⟩ := hmono _ n0 hn0
        exact ⟨hxtied, n1, by rw [hw]; exact hn1, by omega⟩
      · rw [hn, Option.some.injEq] at hn1
        exact ⟨htied, n', by rw [hw]; exact hn', by rw [hn1]; omega⟩
  · refine ⟨by rw [hlist]; exact hinv.1, ?_⟩
    intro x hx
    rw [hlist] at hx
    obtain ⟨hxtied, n0, hn0, hlt⟩ := hinv.2 x hx
    exact ⟨hxtied, n0, by rw [hworld, offer_nonce_of_not_accepted env m t s.world hacc]; exact hn0, hlt⟩

/-- In a run whose accepted transactions are all `NonceSafe`, no signed transaction is accepted
twice, and each acceptance raises the nonce of the sender by one and lowers none. -/
theorem run_no_replay (env : Env F) (m : Miner) (hm : m.attacker = false) (genesis : World F)
    (txns : List (SignedTransaction F)) (s : LedgerState F)
    (hmeets : Meets (ledgerStep env m)
      (fun s t => Accepts env m t s.world → NonceSafe env t s.world) ⟨genesis, []⟩ txns)
    (hrun : run (ledgerStep env m) ⟨genesis, []⟩ txns = some s) :
    s.accepted.Nodup ∧
      ∀ before t after s1, txns = before ++ t :: after →
        run (ledgerStep env m) ⟨genesis, []⟩ before = some s1 → Accepts env m t s1.world →
        RaisesNonce env t s1.world := by
  refine ⟨?_, ?_⟩
  · have hinit : Spent (⟨genesis, []⟩ : LedgerState F) := ⟨List.nodup_nil, by simp⟩
    exact (run_invariant Spent (fun s t s' hinv hsafe => ledgerStep_spent env m hm s s' t hinv hsafe)
      txns hinit hmeets hrun).1
  · rintro before t after s1 rfl hbefore hacc
    have hsafe := (meets_append before (t :: after) hmeets hbefore).1 hacc
    exact raisesNonce_of_safe env t s1.world ((accepts_iff env m t s1.world).mp hacc).2 hsafe

theorem ledgerStep_of_accepts (env : Env F) (m : Miner) (s : LedgerState F) (t : SignedTransaction F)
    (h : Accepts env m t s.world) :
    ledgerStep env m s t = some ⟨(offer env m t s.world).2, s.accepted ++ [t]⟩ := by
  obtain ⟨u, hu⟩ := (Outcome.isOk_iff _).mp h
  unfold ledgerStep
  split <;> simp_all

theorem run_accepts_twice (env : Env F) (m : Miner) (t : SignedTransaction F) (w : World F)
    (h1 : Accepts env m t w) (h2 : Accepts env m t (offer env m t w).2) :
    ∃ s, run (ledgerStep env m) ⟨w, []⟩ [t, t] = some s ∧ s.accepted = [t, t] :=
  ⟨_, (run_cons (ledgerStep_of_accepts env m ⟨w, []⟩ t h1) [t]).trans
    (run_cons (ledgerStep_of_accepts env m ⟨_, [t]⟩ t h2) []), rfl⟩

theorem nonceSafe_of_transfer (env : Env F) (t : SignedTransaction F) (w : World F) (ht : t.isTransfer)
    (htied : t.txn.fromAddr.hex = t.sender)
    (hroom : ∀ n, w.nonce? t.sender = some n → n.toNat + 1 < 2 ^ 64) : NonceSafe env t w where
  tied := htied
  acts h := by rw [SignedTransaction.isTrigger, ht.1] at h; exact absurd h.1.1 (by decide)
  keeps h := absurd h ht.2.1
  room := hroom

/-- A payment offered twice is accepted once. -/
theorem payment_no_replay :
    ∃ s, run (ledgerStep (sampleEnv none) sampleMiner) ⟨paymentWorld, []⟩ [payment, payment] = some s ∧
      s.accepted.Nodup := by
  have hsafe : ∀ w : World Int, (w.nonce? payment.sender = some 0 ∨ w.nonce? payment.sender = some 1) →
      NonceSafe (sampleEnv none) payment w := by
    intro w hw
    refine nonceSafe_of_transfer _ payment w ⟨by decide, by decide, by decide⟩ (by decide) ?_
    intro n hn
    rcases hw with hw | hw <;> rw [hw, Option.some.injEq] at hn <;> rw [← hn] <;> decide
  have hmeets : Meets (ledgerStep (sampleEnv none) sampleMiner)
      (fun s t => Accepts (sampleEnv none) sampleMiner t s.world → NonceSafe (sampleEnv none) t s.world)
      ⟨paymentWorld, []⟩ [payment, payment] := by
    refine ⟨fun _ => hsafe _ (Or.inl (by decide)), fun s' hs' => ⟨fun _ => hsafe _ (Or.inr ?_), fun _ _ => trivial⟩⟩
    rw [(ledgerStep_eq_some _ _ _ _ _ hs').1]
    decide
  have hrun : (run (ledgerStep (sampleEnv none) sampleMiner) ⟨paymentWorld, []⟩ [payment, payment]).isSome := by
    decide
  obtain ⟨s, hs⟩ := Option.isSome_iff_exists.mp hrun
  exact ⟨s, hs, (run_no_replay (sampleEnv none) sampleMiner rfl paymentWorld _ s hmeets hs).1⟩

/-- A contract that assumes more money than the buyer has. -/
def strictContract : Contract Int :=
  newContract "1" "strict" "ASSUME buyer.balance > 100"
    ⟨[some ⟨⟨⟨"buyer", [some ⟨"balance"⟩]⟩, ">", ⟨none, some 100⟩⟩⟩], []⟩
    (sampleAddress 2).string (sampleAddress 1).string

def strictWorld : World Int :=
  sampleWorld [(sampleAddress 1, sampleState 0 7 ""), (sampleAddress 2, sampleState 0 5 ""),
    (sampleContractAddress, sampleState 0 0 (strictContract.marshal.getD ""))]

def strictTrigger : SignedTransaction Int :=
  sampleSigned 1 (sampleTxn 0 (sampleAddress 1) sampleContractAddress EXEC_CONTRACT 0)

def strictEnv : Env Int := sampleEnv (some strictContract)

/-- The trigger returns nil without raising the nonce, so it is accepted again and again. -/
theorem strictTrigger_replayed :
    ∃ s, run (ledgerStep strictEnv sampleMiner) ⟨strictWorld, []⟩ [strictTrigger, strictTrigger] = some s ∧
      ¬ s.accepted.Nodup := by
  have h1 : Accepts strictEnv sampleMiner strictTrigger strictWorld := by
    unfold Accepts; decide
  have h2 : Accepts strictEnv sampleMiner strictTrigger
      (offer strictEnv sampleMiner strictTrigger strictWorld).2 := by
    unfold Accepts; decide
  obtain ⟨s, hs, hlist⟩ := run_accepts_twice strictEnv sampleMiner strictTrigger strictWorld h1 h2
  exact ⟨s, hs, by simp [hlist]⟩

end MarketPeer.Ledger
