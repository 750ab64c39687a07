import MarketPeer.Ledger.Effects
import MarketPeer.Lib.MapTotal
import MarketPeer.Lib.Runs
import Mathlib.Data.UInt
import Mathlib.Tactic.Ring

/-!
# Conservation of money

The sum of all balances, in the wrapping arithmetic of the balances themselves.
Every debit has its credit; only a contract that is created over an account makes
the money of that account disappear.
-/

namespace MarketPeer.Ledger

open MarketPeer.Contracts

variable {F : Type}

def Entry.balance : Entry F → UInt64
  | .account s => s.balance
  | .other _ => 0

def World.totalBalance (w : World F) : UInt64 := mapTotal Entry.balance w.internal

def World.balanceAt (w : World F) (key : String) : UInt64 := (w.account? key).elim 0 State.balance

open scoped UInt64.CommRing

theorem balanceAt_eq (w : World F) (key : String) :
    (w.internal[key]?).elim 0 Entry.balance = w.balanceAt key := by
  unfold World.balanceAt World.account? SimpleKV.get?
  rcases w.internal[key]? with - | (s | v) <;> rfl

theorem totalBalance_put (w : World F) (key : String) (s : State F) :
    World.totalBalance (SimpleKV.put w key (.account s)) = w.totalBalance - w.balanceAt key + s.balance := by
  have h := mapTotal_insert Entry.balance w.internal key (.account s)
  rw [balanceAt_eq] at h
  unfold World.totalBalance SimpleKV.put
  simp only [Entry.balance] at h ⊢
  rw [sub_add_eq_add_sub, ← h, add_sub_cancel_right]

theorem totalBalance_update (w : World F) (key : String) (f : State F → State F) (s : State F)
    (hs : w.account? key = some s) :
    (w.update key f).totalBalance = w.totalBalance - s.balance + (f s).balance := by
  rw [World.update_of_account w key f s hs, totalBalance_put, World.balanceAt, hs, Option.elim_some]

theorem update_of_no_account (w : World F) (key : String) (f : State F → State F)
    (h : w.account? key = none) : w.update key f = w := by
  unfold World.account? at h
  unfold World.update
  split at h <;> simp_all

theorem totalBalance_update_of_eq (w : World F) (key : String) (f : State F → State F)
    (hf : ∀ s, (f s).balance = s.balance) : (w.update key f).totalBalance = w.totalBalance := by
  cases hs : w.account? key with
  | none => rw [update_of_no_account w key f hs]
  | some s => rw [totalBalance_update w key f s hs, hf, sub_add_cancel]

/-- A debit and a credit of the same amount, also when both go to one account. -/
theorem totalBalance_debit_credit (w : World F) (payer payee : String) (amount : UInt64)
    (f g : State F → State F) (hf : ∀ s, (f s).balance = s.balance - amount)
    (hg : ∀ s, (g s).balance = s.balance + amount) (hpayer : (w.account? payer).isSome)
    (hpayee : (w.account? payee).isSome) :
    ((w.update payer f).update payee g).totalBalance = w.totalBalance ∧
      ((w.update payee g).update payer f).totalBalance = w.totalBalance := by
  have key : ∀ (k k' : String) (f' g' : State F → State F) (a : UInt64),
      (∀ s, (f' s).balance = s.balance + a) → (∀ s, (g' s).balance = s.balance - a) →
      (w.account? k).isSome → (w.account? k').isSome →
      ((w.update k f').update k' g').totalBalance = w.totalBalance := by
    intro k k' f' g' a hf' hg' hk hk'
    obtain ⟨s, hs⟩ := Option.isSome_iff_exists.mp hk
    obtain ⟨s', hs'⟩ := Option.isSome_iff_exists.mp ((account?_isSome_update w k k' f').trans hk')
    rw [totalBalance_update _ k' g' s' hs', totalBalance_update w k f' s hs, hf', hg']
    ring
  refine ⟨key payer payee f g (-amount) ?_ ?_ hpayer hpayee, key payee payer g f amount hg hf hpayee hpayer⟩
  · intro s
    rw [hf, sub_eq_add_neg]
  · intro s
    rw [hg, sub_neg_eq_add]

variable [Float64 F]

/-! ## Contracts -/

theorem account?_isSome_runAction (p a : String) (x : Action F) (w : World F) (k : String) :
    ((runAction p a x w).2.account? k).isSome = (w.account? k).isSome := by
  have h := runAction_effect p a x w
  generalize runAction p a x w = r at h
  cases h with
  | failed => rfl
  | skipped => rfl
  | paid => rw [account?_isSome_update, account?_isSome_update]
  | refunded => rw [account?_isSome_update, account?_isSome_update]
  | halfSent => rw [account?_isSome_update]
  | sent => rw [account?_isSome_update, account?_isSome_update]

theorem runAction_totalBalance (p a : String) (x : Action F) (w : World F)
    (hp : (w.account? p).isSome) (ha : (w.account? a).isSome) :
    (runAction p a x w).2.totalBalance = w.totalBalance := by
  have h := runAction_effect p a x w
  generalize runAction p a x w = r at h
  cases h with
  | failed => rfl
  | skipped => rfl
  | paid n =>
    exact (totalBalance_debit_credit w p a _ _ _ (fun _ => rfl) (fun _ => rfl) hp ha).1
  | refunded n =>
    exact (totalBalance_debit_credit w a p _ _ _ (fun _ => rfl) (fun _ => rfl) ha hp).2
  | halfSent => exact totalBalance_update_of_eq _ _ _ fun s => rfl
  | sent => rw [totalBalance_update_of_eq, totalBalance_update_of_eq] <;> intro s <;> rfl

theorem runActions_totalBalance (p a : String) (xs : List (Action F)) (w : World F)
    (hp : (w.account? p).isSome) (ha : (w.account? a).isSome) :
    (runActions p a xs w).2.totalBalance = w.totalBalance := by
  refine (runActions_induct
    (fun w w' => ((w.account? p).isSome → (w.account? a).isSome → w'.totalBalance = w.totalBalance) ∧
      ∀ k, (w'.account? k).isSome = (w.account? k).isSome)
    (fun _ => ⟨fun _ _ => rfl, fun _ => rfl⟩) ?_ p a ?_ xs w).1 hp ha
  · rintro w1 w2 w3 ⟨h12, hsome⟩ ⟨h23, hsome'⟩
    refine ⟨fun hp ha => ?_, fun k => (hsome' k).trans (hsome k)⟩
    rw [h23 ((hsome p).trans hp) ((hsome a).trans ha), h12 hp ha]
  · intro x w
    exact ⟨runAction_totalBalance p a x w, account?_isSome_runAction p a x w⟩

/-! ## Transactions -/

/-- A creation that replaces an account with money. -/
def Overwrites (t : SignedTransaction F) (w : World F) : Prop :=
  t.txn.type = CREATE_CONTRACT ∧ (w.account? t.sender).isSome ∧ w.balanceAt t.receiver ≠ 0

/-- A creation is refused only when the sender has no account. -/
theorem executeTxn_create_isOk (env : Env F) (t : SignedTransaction F) (w : World F)
    (ht : t.txn.type = CREATE_CONTRACT) (hs : (w.account? t.sender).isSome) :
    (executeTxn env t w).1.isOk = true := by
  obtain ⟨s, hs⟩ := Option.isSome_iff_exists.mp hs
  have hlookup := (World.lookup_eq_ok w t.sender "address dont exist: %w" "state is corrupted: %v" s).mpr hs
  unfold SignedTransaction.sender at hlookup
  simp [executeTxn, doExecuteTxn, createContract, retrieveState, ht, hlookup, hideErr, andThen, wrapFst, wrapErr]

theorem executeTxn_totalBalance (env : Env F) (t : SignedTransaction F) (w : World F) :
    (executeTxn env t w).2.totalBalance =
      if t.txn.type = CREATE_CONTRACT ∧ (w.account? t.sender).isSome then
        w.totalBalance - w.balanceAt t.receiver
      else w.totalBalance := by
  have h := executeTxn_effect env t w
  have hcreate := executeTxn_create_isOk env t w
  generalize executeTxn env t w = r at h hcreate
  cases h with
  | refused r hr =>
    rw [if_neg]
    rintro ⟨ht, hs⟩
    have := hcreate ht hs
    simp [hr] at this
  | idle ht hplan => rw [if_neg (fun h => ht.2 h.1)]
  | stopped plan r r' w' ht hplan hrun hr hr' =>
    obtain ⟨-, hp, ha⟩ := plan_parties env t w plan hplan
    have := runActions_totalBalance plan.proposer plan.acceptor plan.actions w hp ha
    rw [hrun] at this
    rw [if_neg (fun h => ht.2 h.1)]
    exact this
  | ran plan w' ht hplan hrun =>
    obtain ⟨-, hp, ha⟩ := plan_parties env t w plan hplan
    have := runActions_totalBalance plan.proposer plan.acceptor plan.actions w hp ha
    rw [hrun] at this
    rw [if_neg (fun h => ht.2 h.1), totalBalance_update_of_eq _ _ State.addNonce (fun s => rfl)]
    exact this
  | created s ht hs =>
    -- The nonce of the sender goes up first, which may be the account that is replaced.
    have hsame : (w.update t.sender State.addNonce).balanceAt t.receiver = w.balanceAt t.receiver := by
      unfold World.balanceAt
      rw [World.account?_update]
      split
      · cases w.account? t.receiver <;> rfl
      · rfl
    rw [if_pos ⟨ht, by simp [hs]⟩, totalBalance_put, hsame,
      totalBalance_update_of_eq _ _ State.addNonce (fun s => rfl)]
    simp
  | stored s ht hc hs =>
    rw [if_neg (fun h => by rw [ht] at h; exact absurd h.1 (by decide))]
    exact totalBalance_update_of_eq _ _ _ fun s => rfl
  | moved s s' ht hs hs' =>
    rw [if_neg (fun h => ht.2.1 h.1)]
    exact (totalBalance_debit_credit w t.sender t.receiver t.amount _ _ (fun _ => rfl) (fun _ => rfl)
      (by simp [hs]) (by simp [hs'])).1

theorem totalBalance_kept_iff (env : Env F) (t : SignedTransaction F) (w : World F) :
    (executeTxn env t w).2.totalBalance = w.totalBalance ↔ ¬ Overwrites t w := by
  rw [executeTxn_totalBalance]
  unfold Overwrites
  split_ifs with h
  · simp [h, sub_eq_self]
  · simp only [true_iff]
    exact fun h' => h ⟨h'.1, h'.2.1⟩

/-! ## Runs -/

def executeStep (env : Env F) (w : World F) (t : SignedTransaction F) : Option (World F) :=
  some (executeTxn env t w).2

/-- A transaction keeps the total exactly when it does not create a contract over money, and a
run whose transactions all keep it ends with what genesis had. -/
theorem money_conserved_iff (env : Env F) :
    (∀ (t : SignedTransaction F) (w : World F),
      (executeTxn env t w).2.totalBalance = w.totalBalance ↔ ¬ Overwrites t w) ∧
    ∀ (genesis w : World F) (txns : List (SignedTransaction F)),
      Meets (executeStep env) (fun w t => ¬ Overwrites t w) genesis txns →
      run (executeStep env) genesis txns = some w → w.totalBalance = genesis.totalBalance := by
  refine ⟨totalBalance_kept_iff env, ?_⟩
  intro genesis w txns hmeets hrun
  refine run_invariant (fun w => w.totalBalance = genesis.totalBalance) ?_ txns rfl hmeets hrun
  intro w1 t w2 hinv hsafe hstep
  simp only [executeStep, Option.some.injEq] at hstep
  rw [← hstep, (totalBalance_kept_iff env t w1).mpr hsafe, hinv]

theorem payment_conserved :
    (executeTxn (sampleEnv none) payment (executeTxn (sampleEnv none) payment paymentWorld).2).2.totalBalance =
      paymentWorld.totalBalance := by
  have hkeeps : ∀ w : World Int, ¬ Overwrites payment w := fun w h => absurd h.1 (by decide)
  exact (money_conserved_iff (sampleEnv none)).2 paymentWorld _ [payment, payment]
    (meets_of_forall _ (by simpa using hkeeps)) rfl

def contractOverTwo : SignedTransaction Int :=
  sampleSigned 1 (sampleTxn 0 (sampleAddress 1) (sampleAddress 2) CREATE_CONTRACT 0)

/-- The creation verifies, returns nil, and the five coins of 2 are gone. -/
theorem contractOverTwo_loses_money :
    (doVerifyTxn (sampleEnv none) sampleMiner contractOverTwo paymentWorld).isOk = true ∧
    (executeTxn (sampleEnv none) contractOverTwo paymentWorld).1.isOk = true ∧
    paymentWorld.totalBalance = 12 ∧
    (executeTxn (sampleEnv none) contractOverTwo paymentWorld).2.totalBalance = 7 := by
  decide

end MarketPeer.Ledger
