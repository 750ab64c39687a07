import MarketPeer.Ledger.Execute

/-!
# What executing a transaction can do

`Effect` lists every way `executeTxn` ends, with what holds there. The proofs
about whole runs split on it and never open `executeTxn` again.
-/

namespace MarketPeer.Ledger

open MarketPeer.Contracts

variable {F α : Type}

/-! ## Accepted transactions -/

/-- What a transaction that passes `doVerifyTxn` looks like: the signature recovers to an
address with the hex form of the sender, and the account at that form has the nonce and covers
the value. -/
structure Verified (env : Env F) (t : SignedTransaction F) (w : World F) (publicKey : Bytes)
    (s : State F) : Prop where
  recovered : env.ecrecover t.digest t.signature = .ok publicKey
  nonempty : t.signature ≠ []
  valid : env.verifySignature publicKey t.digest t.signature.dropLast = true
  hex : (Address.newFromPublicKey env publicKey).hex = t.txn.fromAddr.hex
  account : w.account? t.txn.fromAddr.hex = some s
  nonce : t.txn.nonce = s.nonce.toInt64
  covered : ¬ s.balance.toInt64 < t.txn.value

theorem verifySender_eq_ok (env : Env F) (t : SignedTransaction F) (a : Address) :
    verifySender env t = .ok a ↔ ∃ publicKey, env.ecrecover t.digest t.signature = .ok publicKey ∧
      t.signature ≠ [] ∧ env.verifySignature publicKey t.digest t.signature.dropLast = true ∧
      (Address.newFromPublicKey env publicKey).hex = t.txn.fromAddr.hex ∧
      Address.newFromPublicKey env publicKey = a := by
  simp only [verifySender, Outcome.bind_eq_ok]
  constructor
  · rintro ⟨publicKey, hrec, h⟩
    split_ifs at h with h1 h2 h3
    simp only [Bool.not_eq_true', Bool.not_eq_false, Address.equal, decide_eq_true_eq] at h2 h3
    exact ⟨publicKey, hrec, h1, h2, h3, by simpa using h⟩
  · rintro ⟨publicKey, hrec, h1, h2, h3, rfl⟩
    exact ⟨publicKey, hrec, by simp [h1, h2, Address.equal, h3]⟩

theorem verifyAccount_eq_ok (t : SignedTransaction F) (s : State F) :
    verifyAccount t s = .ok () ↔ t.txn.nonce = s.nonce.toInt64 ∧ ¬ s.balance.toInt64 < t.txn.value := by
  unfold verifyAccount
  split_ifs <;> simp_all

theorem doVerifyTxn_eq_ok (env : Env F) (m : Miner) (hm : m.attacker = false)
    (t : SignedTransaction F) (w : World F) :
    doVerifyTxn env m t w = .ok () ↔ ∃ publicKey s, Verified env t w publicKey s := by
  simp only [doVerifyTxn, hm, Bool.false_eq_true, if_false, Outcome.bind_eq_ok, verifySender_eq_ok]
  constructor
  · rintro ⟨a, ⟨publicKey, hrec, hne, hvalid, hhex, rfl⟩, h⟩
    split at h
    · simp at h
    · simp at h
    · rename_i s hs
      rw [Address.newFromPublicKey_string, hhex, ← World.account?_eq_some] at hs
      rw [verifyAccount_eq_ok] at h
      exact ⟨publicKey, s, hrec, hne, hvalid, hhex, hs, h.1, h.2⟩
  · rintro ⟨publicKey, s, h⟩
    refine ⟨_, ⟨publicKey, h.recovered, h.nonempty, h.valid, h.hex, rfl⟩, ?_⟩
    have hs := h.account
    rw [← h.hex, World.account?_eq_some] at hs
    rw [Address.newFromPublicKey_string, hs]
    exact (verifyAccount_eq_ok t s).mpr ⟨h.nonce, h.covered⟩

/-! ## Reading one field of the accounts -/

def World.view (w : World F) (g : State F → α) (key : String) : Option α := (w.account? key).map g

theorem view_update_of_eq (w : World F) (g : State F → α) (key k : String) (f : State F → State F)
    (h : ∀ s, g (f s) = g s) : (w.update key f).view g k = w.view g k := by
  simp only [World.view, World.account?_update]
  split
  · cases w.account? k <;> simp [h]
  · rfl

theorem view_update (w : World F) (g : State F → α) (key k : String) (f : State F → State F) :
    (w.update key f).view g k = if key = k then (w.account? k).map (g ∘ f) else w.view g k := by
  simp only [World.view, World.account?_update]
  split <;> simp

theorem account?_isSome_update (w : World F) (key k : String) (f : State F → State F) :
    ((w.update key f).account? k).isSome = (w.account? k).isSome := by
  rw [World.account?_update]
  split <;> simp

/-! ## One action of a contract -/

theorem wrapErr_eq_ok (format : String) (r : Res F α) (a : α) :
    wrapErr format r = .ok a ↔ r = .ok a := by
  cases r <;> simp [wrapErr]

variable [Float64 F]

def parties (p a : String) (x : Action F) : Option (String × String) :=
  if x.role = "buyer" then some (p, a) else if x.role = "seller" then some (a, p) else none

def writes (x : Action F) : Prop :=
  (x.action = "transfer" ∨ x.action = "send") ∧ (x.role = "buyer" ∨ x.role = "seller")

/-- A send whose sender gives the product up while the receiver cannot take it. -/
def HalfSends (p a : String) (x : Action F) (w : World F) : Prop :=
  x.action = "send" ∧ ∃ sender receiver product amount fmt w',
    parties p a x = some (sender, receiver) ∧ stringParam x 0 = .ok product ∧
      numberParam x 1 = .ok amount ∧ sendOut sender product amount fmt w = .ok w' ∧
      (sendIn receiver product amount w').isOk = false

/-- How one action of a contract ends. `p` is the proposer, `a` the acceptor. -/
inductive ActionEffect (p a : String) (x : Action F) (w : World F) : Res F Unit × World F → Prop
  | failed (r : Res F Unit) (hr : r.isOk = false) : ActionEffect p a x w (r, w)
  | skipped (h : ¬ writes x) : ActionEffect p a x w (.ok (), w)
  | paid (n : F) (hx : x.action = "transfer") (hrole : x.role = "buyer") (hn : numberParam x 0 = .ok n) :
      ActionEffect p a x w
        (.ok (), (w.update p (State.debit (Float64.toUint n))).update a (State.credit (Float64.toUint n)))
  | refunded (n : F) (hx : x.action = "transfer") (hrole : x.role = "seller")
      (hn : numberParam x 0 = .ok n) :
      ActionEffect p a x w
        (.ok (), (w.update p (State.credit (Float64.toUint n))).update a (State.debit (Float64.toUint n)))
  | halfSent (sender product : String) (v : Value F) (r : Res F Unit) (hhalf : HalfSends p a x w)
      (hr : r.isOk = false) : ActionEffect p a x w (r, w.update sender (State.store product v))
  | sent (sender receiver product : String) (v v' : Value F) (hwrites : writes x)
      (hx : x.action = "send") :
      ActionEffect p a x w
        (.ok (), (w.update sender (State.store product v)).update receiver (State.store product v'))

theorem sendOut_eq_ok (sender product fmt : String) (amount : F) (w w' : World F)
    (h : sendOut sender product amount fmt w = .ok w') :
    ∃ v, w' = w.update sender (State.store product v) := by
  unfold sendOut at h
  split at h
  · simp at h
  · split at h
    · simp at h
    · split_ifs at h
      exact ⟨_, by simpa using h.symm⟩

theorem sendIn_eq_ok (receiver product : String) (amount : F) (w w' : World F)
    (h : sendIn receiver product amount w = .ok w') :
    ∃ v, w' = w.update receiver (State.store product v) := by
  unfold sendIn at h
  split at h
  · exact ⟨_, by simpa using h.symm⟩
  · split at h
    · simp at h
    · exact ⟨_, by simpa using h.symm⟩

theorem send_effect (p a sender receiver product fmt : String) (x : Action F) (amount : F) (w : World F)
    (hx : x.action = "send") (hrole : x.role = "buyer" ∨ x.role = "seller")
    (hparties : parties p a x = some (sender, receiver)) (hproduct : stringParam x 0 = .ok product)
    (hamount : numberParam x 1 = .ok amount) :
    ActionEffect p a x w
      (andThen (sendOut sender product amount fmt w) w fun w =>
        andThen (sendIn receiver product amount w) w fun w => (.ok (), w)) := by
  cases hout : sendOut sender product amount fmt w with
  | err e => exact .failed _ rfl
  | panic why => exact .failed _ rfl
  | ok w1 =>
    have hhalf : (sendIn receiver product amount w1).isOk = false → HalfSends p a x w := fun h =>
      ⟨hx, sender, receiver, product, amount, fmt, w1, hparties, hproduct, hamount, hout, h⟩
    obtain ⟨v, rfl⟩ := sendOut_eq_ok sender product fmt amount w w1 hout
    simp only [andThen]
    cases hin : sendIn receiver product amount (w.update sender (State.store product v)) with
    | err e => exact .halfSent sender product v _ (hhalf (by rw [hin]; rfl)) rfl
    | panic why => exact .halfSent sender product v _ (hhalf (by rw [hin]; rfl)) rfl
    | ok w2 =>
      obtain ⟨v', rfl⟩ := sendIn_eq_ok receiver product amount _ w2 hin
      exact .sent sender receiver product v v' ⟨Or.inr hx, hrole⟩ hx

theorem runTransfer_effect (p a : String) (x : Action F) (w : World F) (hx : x.action = "transfer") :
    ActionEffect p a x w (runTransfer p a x w) := by
  unfold runTransfer
  cases hn : numberParam x 0 with
  | err e => exact .failed _ rfl
  | panic why => exact .failed _ rfl
  | ok n =>
    simp only [andThen]
    split_ifs with h1 h2
    · exact .paid n hx h1 hn
    · exact .refunded n hx h2 hn
    · exact .skipped (by rintro ⟨-, h | h⟩ <;> contradiction)

theorem runSend_effect (p a : String) (x : Action F) (w : World F) (hx : x.action = "send") :
    ActionEffect p a x w (runSend p a x w) := by
  unfold runSend
  cases hproduct : stringParam x 0 with
  | err e => exact .failed _ rfl
  | panic why => exact .failed _ rfl
  | ok product =>
    cases hamount : numberParam x 1 with
    | err e => exact .failed _ rfl
    | panic why => exact .failed _ rfl
    | ok amount =>
      simp only [andThen]
      split_ifs with h1 h2
      · exact send_effect p a p a product _ x amount w hx (Or.inl h1) (by simp [parties, h1])
          hproduct hamount
      · exact send_effect p a a p product _ x amount w hx (Or.inr h2) (by simp [parties, h2])
          hproduct hamount
      · exact .skipped (by rintro ⟨-, h | h⟩ <;> contradiction)

theorem runAction_effect (p a : String) (x : Action F) (w : World F) :
    ActionEffect p a x w (runAction p a x w) := by
  unfold runAction
  split_ifs with h1 h2
  · exact runTransfer_effect p a x w h1
  · exact runSend_effect p a x w h2
  · exact .skipped (by rintro ⟨h | h, -⟩ <;> contradiction)

/-- What every action keeps, the whole loop keeps: `R` relates the world before to the world
after, also when the loop stops at an error. -/
theorem runActions_induct (R : World F → World F → Prop) (refl : ∀ w, R w w)
    (trans : ∀ w1 w2 w3, R w1 w2 → R w2 w3 → R w1 w3) (p a : String)
    (step : ∀ x w, R w (runAction p a x w).2) (xs : List (Action F)) (w : World F) :
    R w (runActions p a xs w).2 := by
  induction xs generalizing w with
  | nil => exact refl w
  | cons x rest ih =>
    have hx := step x w
    unfold runActions
    split
    · rename_i w' hw'
      rw [hw'] at hx
      exact trans _ _ _ hx (ih w')
    · exact hx

/-! ## One transaction -/

/-- A call of a contract: anything but a creation, sent to a contract address. -/
def SignedTransaction.isTrigger (t : SignedTransaction F) : Prop :=
  t.txn.toAddr.isContract = true ∧ t.txn.type ≠ CREATE_CONTRACT

def SignedTransaction.isTransfer (t : SignedTransaction F) : Prop :=
  t.txn.toAddr.isContract = false ∧ t.txn.type ≠ CREATE_CONTRACT ∧ t.txn.type ≠ SET_STORAGE

def SignedTransaction.sender (t : SignedTransaction F) : String := t.txn.fromAddr.string
def SignedTransaction.receiver (t : SignedTransaction F) : String := t.txn.toAddr.string
def SignedTransaction.amount (t : SignedTransaction F) : UInt64 := t.txn.value.toUInt64

/-! ## The plan of a trigger -/

theorem validateAssumptions_accounts (c c' : Contract F) (w : World F) (valid : Bool)
    (h : c.validateAssumptions w = .ok (valid, c')) :
    c'.proposerAccount = c.proposerAccount ∧ c'.acceptorAccount = c.acceptorAccount := by
  simp only [Contract.validateAssumptions, Outcome.bind_eq_ok, Outcome.pure_eq, Outcome.ok.injEq,
    Prod.mk.injEq] at h
  obtain ⟨_, -, -, rfl⟩ := h
  exact ⟨rfl, rfl⟩

theorem collectActions_accounts (c c' : Contract F) (w : World F) (actions : List (Action F))
    (h : c.collectActions w = .ok (actions, c')) :
    c'.proposerAccount = c.proposerAccount ∧ c'.acceptorAccount = c.acceptorAccount := by
  simp only [Contract.collectActions, Outcome.bind_eq_ok, Outcome.pure_eq, Outcome.ok.injEq,
    Prod.mk.injEq] at h
  obtain ⟨_, -, -, rfl⟩ := h
  exact ⟨rfl, rfl⟩

/-- The contract that a trigger calls says that its assumptions do not hold. -/
def AssumptionsFail (env : Env F) (t : SignedTransaction F) (w : World F) : Prop :=
  ∃ s c c', w.account? t.receiver = some s ∧ env.unmarshalContract s.code = .ok c ∧
    c.validateAssumptions w = .ok (false, c')

/-- Where a plan comes from: the stored contract, called by its acceptor, with what its assumptions and
clauses come to. -/
inductive Planned (env : Env F) (t : SignedTransaction F) (w : World F) : Option (Plan F) → Prop
  | idle (s : State F) (c c₁ : Contract F) (hs : w.account? t.receiver = some s)
      (hc : env.unmarshalContract s.code = .ok c) (hvalid : c.validateAssumptions w = .ok (false, c₁)) :
      Planned env t w none
  | agreed (s : State F) (c c₁ c₂ : Contract F) (actions : List (Action F))
      (hs : w.account? t.receiver = some s) (hc : env.unmarshalContract s.code = .ok c)
      (hacceptor : t.sender = c.acceptorAccount) (hvalid : c.validateAssumptions w = .ok (true, c₁))
      (hcollect : c₁.collectActions w = .ok (actions, c₂))
      (hp : (w.account? c.proposerAccount).isSome) (ha : (w.account? c.acceptorAccount).isSome) :
      Planned env t w (some ⟨c.proposerAccount, c.acceptorAccount, actions⟩)

theorem planned_of_plan (env : Env F) (t : SignedTransaction F) (w : World F) (plan? : Option (Plan F))
    (h : planContract env t w = .ok plan?) : Planned env t w plan? := by
  simp only [planContract, Outcome.bind_eq_ok, wrapErr_eq_ok, retrieveState, World.lookup_eq_ok] at h
  obtain ⟨s, hs, c, hc, h⟩ := h
  split_ifs at h with hacc
  simp only [Outcome.bind_eq_ok, wrapErr_eq_ok] at h
  obtain ⟨⟨valid, c₁⟩, hvalid, h⟩ := h
  cases valid with
  | false =>
    simp only [Bool.not_false, if_true, Outcome.pure_eq, Outcome.ok.injEq] at h
    rw [← h]
    exact .idle s c c₁ hs hc hvalid
  | true =>
    simp only [Bool.not_true, Bool.false_eq_true, if_false, Outcome.bind_eq_ok, wrapErr_eq_ok,
      World.lookup_eq_ok, Outcome.pure_eq, Outcome.ok.injEq] at h
    obtain ⟨⟨actions, c₂⟩, hcollect, sp, hp, sa, ha, rfl⟩ := h
    obtain ⟨hp₁, ha₁⟩ := validateAssumptions_accounts c c₁ w true hvalid
    obtain ⟨hp₂, ha₂⟩ := collectActions_accounts c₁ c₂ w actions hcollect
    rw [hp₂, hp₁] at hp
    rw [ha₂, ha₁] at ha
    simp only [hp₂, hp₁, ha₂, ha₁]
    exact .agreed s c c₁ c₂ actions hs hc (not_not.mp hacc) hvalid hcollect (by simp [hp]) (by simp [ha])

theorem assumptionsFail_of_plan (env : Env F) (t : SignedTransaction F) (w : World F)
    (h : planContract env t w = .ok none) : AssumptionsFail env t w := by
  cases planned_of_plan env t w none h with
  | idle s c c₁ hs hc hvalid => exact ⟨s, c, c₁, hs, hc, hvalid⟩

/-- Both parties of a plan are accounts, and the acceptor is the sender of the trigger. -/
theorem plan_parties (env : Env F) (t : SignedTransaction F) (w : World F) (plan : Plan F)
    (h : planContract env t w = .ok (some plan)) :
    plan.acceptor = t.sender ∧ (w.account? plan.proposer).isSome ∧ (w.account? plan.acceptor).isSome := by
  cases planned_of_plan env t w _ h with
  | agreed s c c₁ c₂ actions hs hc hacceptor hvalid hcollect hp ha => exact ⟨hacceptor.symm, hp, ha⟩

theorem doContract_eq_ok (env : Env F) (t : SignedTransaction F) (w w' : World F)
    (hdo : doContract env t w = (.ok (), w')) :
    planContract env t w = .ok none ∧ w' = w ∨
    ∃ plan w₁, planContract env t w = .ok (some plan) ∧
      runActions plan.proposer plan.acceptor plan.actions w = (.ok (), w₁) ∧
      w' = w₁.update plan.acceptor State.addNonce := by
  unfold doContract at hdo
  cases hplan : planContract env t w with
  | err e => simp [hplan, andThen] at hdo
  | panic why => simp [hplan, andThen] at hdo
  | ok plan? =>
    cases plan? with
    | none =>
      simp only [hplan, andThen, Prod.mk.injEq, true_and] at hdo
      exact Or.inl ⟨rfl, hdo.symm⟩
    | some plan =>
      rcases hrun : runActions plan.proposer plan.acceptor plan.actions w with ⟨r, w₁⟩
      simp only [hplan, hrun, andThen] at hdo
      cases r with
      | err e => simp at hdo
      | panic why => simp at hdo
      | ok _ => exact Or.inr ⟨plan, w₁, rfl, hrun, ((Prod.mk.injEq ..).mp hdo).2.symm⟩

/-! ## How a transaction ends -/

inductive Effect (env : Env F) (t : SignedTransaction F) (w : World F) :
    Res F Unit × World F → Prop
  | refused (r : Res F Unit) (hr : r.isOk = false) : Effect env t w (r, w)
  | idle (ht : t.isTrigger) (hplan : planContract env t w = .ok none) : Effect env t w (.ok (), w)
  | stopped (plan : Plan F) (r r' : Res F Unit) (w' : World F) (ht : t.isTrigger)
      (hplan : planContract env t w = .ok (some plan))
      (hrun : runActions plan.proposer plan.acceptor plan.actions w = (r, w')) (hr : r.isOk = false)
      (hr' : r' = wrapErr "execute error: %w" r) : Effect env t w (r', w')
  | ran (plan : Plan F) (w' : World F) (ht : t.isTrigger)
      (hplan : planContract env t w = .ok (some plan))
      (hrun : runActions plan.proposer plan.acceptor plan.actions w = (.ok (), w')) :
      Effect env t w (.ok (), w'.update plan.acceptor State.addNonce)
  | created (s : State F) (ht : t.txn.type = CREATE_CONTRACT) (hs : w.account? t.sender = some s) :
      Effect env t w
        (.ok (), (w.update t.sender State.addNonce).put t.receiver (.account ⟨0, 0, .new, t.txn.code⟩))
  | stored (s : State F) (ht : t.txn.type = SET_STORAGE) (hc : t.txn.toAddr.isContract = false)
      (hs : w.account? t.sender = some s) :
      Effect env t w
        (.ok (), w.update t.sender fun s => s.addNonce.store t.txn.storeK t.txn.storeV)
  | moved (s s' : State F) (ht : t.isTransfer) (hs : w.account? t.sender = some s)
      (hs' : w.account? t.receiver = some s') :
      Effect env t w
        (.ok (), (w.update t.sender fun s => (s.debit t.amount).addNonce).update t.receiver
          (State.credit t.amount))

theorem doContract_effect (env : Env F) (t : SignedTransaction F) (w : World F) (ht : t.isTrigger) :
    Effect env t w (wrapFst "execute error: %w" (doContract env t w)) := by
  unfold doContract
  cases hplan : planContract env t w with
  | err e => exact .refused _ rfl
  | panic why => exact .refused _ rfl
  | ok plan? =>
    cases plan? with
    | none => exact .idle ht hplan
    | some plan =>
      simp only [andThen]
      cases hrun : runActions plan.proposer plan.acceptor plan.actions w with
      | mk r w' =>
        cases r with
        | err e => exact .stopped plan _ _ w' ht hplan hrun rfl rfl
        | panic why => exact .stopped plan _ _ w' ht hplan hrun rfl rfl
        | ok _ => exact .ran plan w' ht hplan hrun

theorem createContract_effect (env : Env F) (t : SignedTransaction F) (w : World F)
    (ht : t.txn.type = CREATE_CONTRACT) :
    Effect env t w (wrapFst "execute error: %w"
      (wrapFst "create contract error: %w" (createContract t w))) := by
  unfold createContract retrieveState
  rcases w.lookup_cases t.txn.fromAddr.string "address dont exist: %w" "state is corrupted: %v" with
    ⟨s, hok, hs⟩ | ⟨e, herr, -⟩
  · simp only [hok, hideErr, andThen]; exact .created s ht hs
  · simp only [herr, hideErr, andThen]; exact .refused _ rfl

theorem setStorage_effect (env : Env F) (t : SignedTransaction F) (w : World F)
    (ht : t.txn.type = SET_STORAGE) (hc : t.txn.toAddr.isContract = false) :
    Effect env t w (wrapFst "execute error: %w" (wrapFst "set storage error: %w" (setStorage t w))) := by
  unfold setStorage
  rcases w.lookup_cases t.txn.fromAddr.string "from address dont exist: %w"
    "from state is corrupted: %v" with ⟨s, hok, hs⟩ | ⟨e, herr, -⟩
  · simp only [hok, andThen]; exact .stored s ht hc hs
  · simp only [herr, andThen]; exact .refused _ rfl

theorem doValueTransfer_effect (env : Env F) (t : SignedTransaction F) (w : World F)
    (ht : t.isTransfer) :
    Effect env t w (wrapFst "execute error: %w"
      (wrapFst "execute value transfer error: %w" (doValueTransfer t w))) := by
  unfold doValueTransfer
  rcases w.lookup_cases t.txn.fromAddr.string "from address dont exist: %w"
    "from state is corrupted: %v" with ⟨s, hok, hs⟩ | ⟨e, herr, -⟩
  · rcases w.lookup_cases t.txn.toAddr.string "to address dont exist: %w"
      "to state is corrupted: %v" with ⟨s', hok', hs'⟩ | ⟨e, herr, -⟩
    · simp only [hok, hok', andThen]; exact .moved s s' ht hs hs'
    · simp only [hok, herr, andThen]; exact .refused _ rfl
  · simp only [herr, andThen]; exact .refused _ rfl

theorem executeTxn_effect (env : Env F) (t : SignedTransaction F) (w : World F) :
    Effect env t w (executeTxn env t w) := by
  unfold executeTxn doExecuteTxn
  split_ifs with h1 h2 h3
  · exact doContract_effect env t w h1
  · exact createContract_effect env t w h2
  · exact setStorage_effect env t w h3 (by simpa [h2] using h1)
  · exact doValueTransfer_effect env t w ⟨by simpa [h2] using h1, h2, h3⟩

end MarketPeer.Ledger
